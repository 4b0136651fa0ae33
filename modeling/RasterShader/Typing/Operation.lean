import RasterShader.Dialect
import RasterShader.Typing.Coerce
import RasterShader.Typing.Operands

/-!
# Type checking of operations

Binary, prefix, postfix and ternary operations. With optimization on, operations on constants are
carried out on the spot, and a constant test decides which operand remains.
-/

namespace RasterShader

namespace Typing

/-- `left op right` from here on does not need its right operand, or is just that: a constant on
the left decides a connective. -/
def shortCircuit? (left : Expr) (op : Operator) (right : Expr) : Option Expr :=
  match op, left.constantBool? with
  | .logicalAnd, some true | .logicalOr, some false => some right
  | .logicalAnd, some false | .logicalOr, some true => some left
  | _, _ => none

/-- Carries the operation out or builds it, once the operands have the right types. -/
def combine (dialect : Dialect) (span : Span) (left : Expr) (op : Operator) (right : Expr)
    (result : Ty) : Checked Expr :=
  match if dialect.settings.optimize then shortCircuit? left op right else none with
  | some e => pure e
  | none =>
    match Constant.foldBinary span left op right result with
    | .error error => .refuse span (.folding error) (.poison span)
    | .ok folded =>
      match if dialect.settings.optimize then folded else none with
      | some e => pure e
      | none => pure (.binary ⟨span, result⟩ left op right)

/-- Checks `left op right` once the left operand of an assignment is known to be writable. -/
def operation (dialect : Dialect) (span : Span) (left : Expr) (op : Operator) (right : Expr) :
    Checked Expr := do
  let right := right.adaptLiteral left.ty
  let left := if op.isAssignment then left else left.adaptLiteral right.ty
  let mismatch : Checked Expr :=
    .refuse span (.operandTypes op left.ty right.ty) (.poison span)
  match OperandTypes.ofOperation op.removeAssignment left.ty right.ty with
  | none => mismatch
  | some types =>
    if op.isCompoundAssignment && !(types.left.same left.ty && types.result.same left.ty) then
      mismatch
    else
      let left ← if op.isAssignment then pure left else left.coerce types.left
      let right ← right.coerce types.right
      if left.isPoison || right.isPoison then return .poison span
      combine dialect span left op right types.result

/-- Checks a binary operation. -/
def binary (dialect : Dialect) (left : Expr) (op : Operator) (right : Expr) : Checked Expr := do
  let span := left.span.join right.span
  if left.isPoison || right.isPoison then return .poison span
  else if op.isAssignment then
    match ← left.markAssigned (if op == .assign then .write else .readWrite) with
    | none => return .poison span
    | some left => operation dialect span left op right
  else operation dialect span left op right

/-- A prefix operator applies to a type. -/
def prefixApplies (op : Operator) (ty : Ty) : Bool :=
  match op with
  | .plus | .minus => ty.isNumber
  | .logicalNot => ty.isBoolean && ty.isScalar
  | .bitwiseNot => ty.isInteger && !ty.isMatrix
  | .plusPlus | .minusMinus => ty.isNumber && !ty.isMatrix
  | _ => false

/-- Checks a prefix operation at `place`. A negated literal is always a literal. -/
def prefixOperation (dialect : Dialect) (place : Span) (op : Operator) (operand : Expr) :
    Checked Expr := do
  let span := place.join operand.span
  let head : Expr.Head := ⟨span, operand.ty⟩
  if operand.isPoison then return operand
  else if !prefixApplies op operand.ty then
    .refuse span (.operandType op operand.ty) (.poison span)
  else
    match op with
    | .plus => return operand
    | .plusPlus | .minusMinus =>
      match ← operand.markAssigned .readWrite with
      | none => return .poison span
      | some operand => return .prefixed head op operand
    | _ =>
      let folds := dialect.settings.optimize || (op == .minus && operand.isLiteral)
      match if folds then Constant.foldPrefix? span op operand else none with
      | some e => return e
      | none => return .prefixed head op operand

/-- Checks an increment or decrement after its operand. -/
def postfixOperation (operand : Expr) (op : Operator) (place : Span) : Checked Expr := do
  let span := operand.span.join place
  if operand.isPoison then return operand
  else if !operand.ty.isNumber || operand.ty.isMatrix then
    .refuse span (.operandType op operand.ty) (.poison span)
  else
    match ← operand.markAssigned .readWrite with
    | none => return .poison span
    | some operand' => return .postfixed ⟨span, operand.ty⟩ op operand'

/-- Checks a choice between two expressions. -/
def ternary (dialect : Dialect) (test ifTrue ifFalse : Expr) (place : Span) : Checked Expr := do
  let span := (test.span.join ifFalse.span).join place
  let test ← test.coerce .bool
  if test.isPoison || ifTrue.isPoison || ifFalse.isPoison then return .poison span
  else
    let ifFalse := ifFalse.adaptLiteral ifTrue.ty
    let ifTrue := ifTrue.adaptLiteral ifFalse.ty
    match OperandTypes.equality ifTrue.ty ifFalse.ty with
    | none => .refuse span (.ternaryTypes ifTrue.ty ifFalse.ty) (.poison span)
    | some types =>
      if types.left.hasEffect then .refuse span (.ternaryOpaque types.left) (.poison span)
      else if dialect.strictEs2 && types.left.hasArray then
        .refuse span .ternaryArray (.poison span)
      else
        let ifTrue ← ifTrue.coerce types.left
        let ifFalse ← ifFalse.coerce types.right
        match if dialect.settings.optimize then test.constantBool? else none with
        | some true => return ifTrue
        | some false => return ifFalse
        | none => return .ternary ⟨span, types.left⟩ test ifTrue ifFalse

end Typing

end RasterShader
