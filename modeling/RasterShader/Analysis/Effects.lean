import RasterShader.Constant.Value
import RasterShader.Ir.Walk

/-!
# Effects and variability of expressions

Whether evaluating an expression can change anything, whether it may be evaluated again for free,
whether its value is fixed at compile time, and whether it is the same in every lane. Each
question but the second is asked of the nodes of the expression one by one.
-/

namespace RasterShader

namespace Expr

/-- Calling the function changes nothing and depends on the arguments only. -/
def calleeIsPure (f : FunctionDecl) : Bool :=
  f.isPure || (f.intrinsic.map Intrinsic.isPure).getD false

/-- Increments and decrements. -/
def isStep (op : Operator) : Bool := op == .plusPlus || op == .minusMinus

/-- The node itself writes storage or calls an impure function. -/
def isEffect : Expr → Bool
  | call _ f _ => !calleeIsPure f
  | binary _ _ op _ => op.isAssignment
  | prefixed _ op _ => isStep op
  | postfixed .. => true
  | _ => false

/-- Evaluating the expression can write storage or call an impure function. -/
def hasSideEffects (e : Expr) : Bool := e.nodes.any isEffect

/-- Cheap enough to evaluate more than once: literals, variables, and swizzles, fields, constant
indices and conversions of those. -/
def isTrivial : Expr → Bool
  | literal .. | reference .. => true
  | swizzle _ base _ | field _ base _ => base.isTrivial
  | index _ base i => i.constantInt?.isSome && base.isTrivial
  | convert _ .resize _ => false
  | convert _ _ operand => operand.isTrivial
  | assemble _ .compound parts => parts.all isLiteral
  | _ => false

mutual

/-- A literal, or a constructor built from such. -/
def isCompileTimeConstant : Expr → Bool
  | literal .. => true
  | convert _ _ operand => isCompileTimeConstant operand
  | assemble _ _ parts => allCompileTimeConstant parts
  | _ => false

/-- All of them are built from literals. -/
def allCompileTimeConstant : List Expr → Bool
  | [] => true
  | e :: rest => isCompileTimeConstant e && allCompileTimeConstant rest

end

/-- The node is permitted in a constant expression. -/
def isConstantNode : Expr → Bool
  | reference _ v _ _ => v.isConst
  | binary _ _ op _ => !op.isAssignment
  | prefixed _ op _ => !isStep op
  | call _ f _ => (f.intrinsic.map Intrinsic.isPure).getD false
  | postfixed .. | childCall .. | poison _ => false
  | _ => true

/-- The expression combines literals and `const` variables only, so that it may initialize a
`const` variable. -/
def isConstantExpression (e : Expr) : Bool := e.nodes.all isConstantNode

/-- The node adds nothing that could differ between lanes. -/
def isUniformNode : Expr → Bool
  | reference _ v _ ref => (v.isUniform || v.isConst) && ref == .read
  | call _ f _ => calleeIsPure f
  | childCall .. | poison _ => false
  | _ => true

/-- The expression has the same value in every lane: it reads only uniforms, literals and
constants, combined by pure operations. -/
def isDynamicallyUniform (e : Expr) : Bool := e.nodes.all isUniformNode

end Expr

end RasterShader
