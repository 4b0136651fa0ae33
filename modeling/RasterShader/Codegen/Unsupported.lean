/-!
# What the pipeline does not support

A program that type-checks may still use what the pipeline has no operations for.
-/

namespace RasterShader

/-- What code generation has no instructions for. -/
inductive Unsupported where
  | noMain
  | mainParameter (ty name : String)
  | noArithmetic (ty : String)
  | invalidExpression
  | shift
  | binaryOperator (symbol : String)
  | prefixOperator (symbol : String)
  | stepOperator (symbol : String)
  | conversion
  | undefinedFunction (signature : String)
  | notAChild (name : String)
  | childCall (name : String)
  | childAsValue (name : String)
  | noArguments
  | wideRefract
  | intrinsicCall (text : String)
  | scatteredLocation
  | indexedSwizzle
  | readOnly
  | discard
  | untestedLoop
  | strayBreak
  | strayContinue
  | strayReturn
  | valueFromVoid
deriving DecidableEq, Repr

/-- What is told of something unsupported. -/
def Unsupported.message : Unsupported → String
  | noMain => "program has no main function"
  | mainParameter ty name => s!"unsupported main parameter '{ty} {name}'"
  | noArithmetic ty => s!"no arithmetic on type '{ty}'"
  | invalidExpression => "invalid expression"
  | shift => "shift operators are not supported"
  | binaryOperator symbol => s!"unsupported binary operator '{symbol}'"
  | prefixOperator symbol => s!"unsupported prefix operator '{symbol}'"
  | stepOperator symbol => s!"unsupported operator '{symbol}'"
  | conversion => "unsupported cast"
  | undefinedFunction signature => s!"function '{signature}' is declared but never defined"
  | notAChild name => s!"'{name}' is not a child effect of this program"
  | childCall name => s!"invalid call to child effect '{name}'"
  | childAsValue name => s!"child effect '{name}' used as a value"
  | noArguments => "intrinsic call without arguments"
  | wideRefract => "refract of more than four components"
  | intrinsicCall text => s!"unsupported intrinsic call '{text}'"
  | scatteredLocation => "swizzle has no contiguous location"
  | indexedSwizzle => "dynamic index into a swizzle"
  | readOnly => "cannot assign to a uniform or constant"
  | discard => "discard is not supported"
  | untestedLoop => "counted loop without a test"
  | strayBreak => "break outside of a loop or switch"
  | strayContinue => "continue outside of a loop"
  | strayReturn => "return outside of a function"
  | valueFromVoid => "value returned from a void function"

end RasterShader
