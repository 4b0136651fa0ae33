import RasterShader.Operator
import RasterShader.Ty.Coercion

/-!
# Operand types of binary operations

Which types the operands of a binary operation are converted to, and the type of its result. A
scalar combines with every component of a vector or matrix; a product with a matrix is the
algebraic one.
-/

namespace RasterShader

/-- Types of a binary operation. -/
structure OperandTypes where
  left : Ty
  right : Ty
  result : Ty
deriving Inhabited

namespace OperandTypes

/-- The component has less than full precision. -/
def isLowPrecision (ty : Ty) : Bool :=
  match ty.component with
  | .scalar s => s.isLowPrecision
  | _ => false

/-- The scalar both operands convert to: the one that is cheaper to reach, and on a tie the one of
full precision. -/
def commonScalar (a b : Ty) : Option Ty :=
  if a.same b then some a
  else
    match a.coercionCost b, b.coercionCost a with
    | some ab, some ba =>
      if ab < ba then some b
      else if ba < ab then some a
      else if isLowPrecision a then some b
      else some a
    | some _, none => some b
    | none, some _ => some a
    | none, none => none

/-- Vectors and matrices. -/
def isCompound (ty : Ty) : Bool := ty.isVector || ty.isMatrix

/-- Types of an operation carried out component by component. -/
def componentwise (left right : Ty) : Option OperandTypes :=
  if left.same right then some ⟨left, right, left⟩
  else if left.isScalar && isCompound right then do
    let scalar ← commonScalar left right.component
    let other ← scalar.toCompound? right.columns right.rows
    return ⟨scalar, other, other⟩
  else if right.isScalar && isCompound left then do
    let scalar ← commonScalar left.component right
    let other ← scalar.toCompound? left.columns left.rows
    return ⟨other, scalar, other⟩
  else if left.sameShape right then do
    let scalar ← commonScalar left.component right.component
    let both ← scalar.toCompound? left.columns left.rows
    return ⟨both, both, both⟩
  else none

/-- Types of a product in which a matrix takes part. -/
def product (left right : Ty) : Option OperandTypes := do
  let scalar ← commonScalar left.component right.component
  let l ← scalar.toCompound? left.columns left.rows
  let r ← scalar.toCompound? right.columns right.rows
  if left.isMatrix && right.isMatrix then
    if left.columns != right.rows then none
    else return ⟨l, r, ← scalar.toCompound? right.columns left.rows⟩
  else if left.isMatrix && right.isVector then
    if left.columns != right.columns then none
    else return ⟨l, r, ← scalar.toCompound? left.rows 1⟩
  else if left.isVector && right.isMatrix then
    if left.columns != right.rows then none
    else return ⟨l, r, ← scalar.toCompound? right.columns 1⟩
  else componentwise left right

/-- Types of a comparison for equality. -/
def equality (left right : Ty) : Option OperandTypes :=
  if !left.supportsEquality || !right.supportsEquality then none
  else if left.same right then some ⟨left, right, .bool⟩
  else if !left.sameShape right then none
  else do
    let scalar ← commonScalar left.component right.component
    let both ← scalar.toCompound? left.columns left.rows
    return ⟨both, both, .bool⟩

/-- Types of a comparison by order. -/
def ordering (left right : Ty) : Option OperandTypes :=
  if !left.isScalar || !right.isScalar || !left.isNumber || !right.isNumber then none
  else do
    let scalar ← commonScalar left right
    return ⟨scalar, scalar, .bool⟩

/-- Types of `left op right` for an operator that is not a compound assignment, if the operation
exists. -/
def ofOperation (op : Operator) (left right : Ty) : Option OperandTypes :=
  match op with
  | .assign =>
    if !left.supportsEquality || (right.coercionCost left).isNone then none
    else some ⟨left, left, left⟩
  | .comma => some ⟨left, right, right⟩
  | .eqEq | .neq => equality left right
  | .logicalAnd | .logicalOr | .logicalXor =>
    if left.same .bool && right.same .bool then some ⟨.bool, .bool, .bool⟩ else none
  | .lt | .gt | .ltEq | .gtEq => ordering left right
  | .plus | .minus | .star | .slash =>
    if !left.isNumber || !right.isNumber then none
    else if op == .star && (left.isMatrix || right.isMatrix) then product left right
    else componentwise left right
  | .percent | .bitwiseAnd | .bitwiseOr | .bitwiseXor | .shl | .shr =>
    if !left.isInteger || !right.isInteger || left.isMatrix || right.isMatrix then none
    else componentwise left right
  | _ => none

end OperandTypes

end RasterShader
