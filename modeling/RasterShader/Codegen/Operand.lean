import RasterShader.Analysis.Effects
import RasterShader.Codegen.Generator

/-!
# Operands

An expression becomes an `Operand`: code that pushes its value, and code that finds its place. Each
operation builds the operand of an expression from those of its parts.

This module holds the operations of the language other than calls; booleans are all ones or zero.
-/

namespace RasterShader

/-- What code generation makes of an expression. -/
structure Operand where
  ty : Ty
  /-- Pushes the value. -/
  push : GenM Unit
  /-- Finds the place of the value, computing it to new slots if it has none. -/
  place : GenM Place
deriving Inhabited

/-- How operations read the slots of a kind. -/
def NumType.ofKind (kind : NumberKind) (ty : Ty) : Except Unsupported NumType :=
  match kind with
  | .float => .ok .float
  | .signed | .boolean => .ok .int
  | .unsigned => .ok .uint
  | .nonnumeric => .error (.noArithmetic ty.name)

/-- How operations read the slots of a type. -/
def NumType.ofTy (ty : Ty) : Except Unsupported NumType := ofKind ty.numberKind ty

namespace Operand

open Gen

/-- The number of slots of the value. -/
def slots (x : Operand) : Nat := x.ty.slotCount

/-- The operand of an expression that has no place of its own. -/
def ofValue (ty : Ty) (push : GenM Unit) : Operand where
  ty
  push
  place := do
    let range ← scratch ty
    push
    build (·.popSlotsUnmasked range)
    return .root .value range

/-- The operand of an expression that is read through its place. -/
def ofPlace (ty : Ty) (place : GenM Place) : Operand where
  ty
  push := do
    let place ← place
    pushPlace place
    releasePlace place
  place

/-- Pushes the value, a scalar as often as it takes to fill `count` slots. -/
def pushSplatted (x : Operand) (count : Nat) : GenM Unit := do
  x.push
  if x.slots = 1 ∧ 1 < count then build (·.pushDuplicates (count - 1))

/-- Pushes words one after the other. -/
def pushWords (words : List UInt32) : GenM Unit :=
  build fun b => words.foldl (fun b word => b.pushConstant word 1) b

/-! ## Variables -/

/-- Pushes the value of a variable. A constant of one slot is pushed as such, so that operations
can take it as an immediate. -/
def pushVariable (ctx : CodeContext) (v : Variable) : GenM Unit := do
  if isFragCoord v then build (·.pushInput .device)
  else
    let g ← get
    match g.immutableVars.lookup v.id with
    | some range =>
      match range.count, g.immutable[range.index]? with
      | 1, some word => build (·.pushConstant word 1)
      | _, _ => build (·.pushSlots .immutable range)
    | none => pushPlace (← variablePlace ctx v)

/-- A variable. -/
def ofVariable (ctx : CodeContext) (ty : Ty) (v : Variable) : Operand where
  ty
  push := pushVariable ctx v
  place := variablePlace ctx v

/-! ## Arithmetic -/

/-- The shape of a factor of a matrix product: a vector is a row on the left and a column on the
right. -/
def factorShape (ty : Ty) (left : Bool) : Shape :=
  if ty.isMatrix then ⟨ty.columns, ty.rows⟩
  else if left then ⟨ty.slotCount, 1⟩
  else ⟨1, ty.slotCount⟩

/-- The product of the types is one of linear algebra. -/
def isMatrixProduct (left right : Ty) : Bool :=
  (left.isMatrix || right.isMatrix) && !left.isScalar && !right.isScalar

/-- Applies an arithmetic operator to `n` components of both operands on the stack. -/
def applyArithmetic (op : Operator) (ty : NumType) (n : Nat) : GenM Unit :=
  match op with
  | .plus => build (·.binary .add ty n)
  | .minus => build (·.binary .sub ty n)
  | .star => build (·.binary .mul ty n)
  | .slash => build (·.binary .div ty n)
  | .percent =>
    if ty == .float then build (·.binary .mod ty n)
    else
      -- a - (a / b) * b
      build fun b =>
        (((b.pushClone (2 * n) (2 * n)).binary .div ty n).binary .mul ty n).binary .sub ty n
  | .bitwiseAnd => build (·.binary .bitwiseAnd .int n)
  | .bitwiseOr => build (·.binary .bitwiseOr .int n)
  | .bitwiseXor => build (·.binary .bitwiseXor .int n)
  | .shl | .shr => throw .shift
  | op => throw (.binaryOperator op.symbol)

/-- Pushes the right operand and applies an operator to it and the left operand on the stack. -/
def pushArithmetic (op : Operator) (left : Ty) (right : Operand) (result : Ty) : GenM Unit := do
  if op == .star && isMatrixProduct left right.ty then
    right.push
    build (·.emit (.multiply (factorShape left true) (factorShape right.ty false)))
  else
    let n := result.slotCount
    let ty ← NumType.ofTy result
    right.pushSplatted n
    applyArithmetic op ty n

/-- An arithmetic operation. -/
def arithmetic (op : Operator) (left right : Operand) (result : Ty) : GenM Unit := do
  if op == .star && isMatrixProduct left.ty right.ty then left.push
  else left.pushSplatted result.slotCount
  pushArithmetic op left.ty right result

/-- Reduces `count` booleans on the stack to one. -/
def foldBooleans (op : BinaryOp) (count : Nat) (b : Builder) : Builder :=
  if count ≤ 1 then b else foldBooleans op (count - count / 2) (b.binary op .int (count / 2))
termination_by count
decreasing_by omega

/-- Flips the sign of the top `count` slots. -/
def negate (ty : Ty) (count : Nat) : GenM Unit := do
  match ← NumType.ofTy ty with
  | .float => build fun b => (b.pushConstant Word.signBit count).binary .bitwiseXor .int count
  | ty => build fun b => (b.pushConstant Word.allOnes count).binary .mul ty count

/-- Complements `count` booleans. -/
def complement (count : Nat) : GenM Unit :=
  build fun b => (b.pushConstant Word.allOnes count).binary .bitwiseXor .int count

/-! ## Comparisons -/

/-- A comparison in which the left operand stands on the left. -/
def compare (op : BinaryOp) (left right : Operand) : GenM Unit := do
  let ty ← NumType.ofTy left.ty
  left.push
  right.push
  build (·.binary op ty left.slots)

/-- The components that exchange two runs of `n` words. -/
def swappedHalves (n : Nat) : List Nat := (List.range n).map (n + ·) ++ List.range n

/-- A comparison in which the right operand stands on the left. Without side effects it is simply
pushed first. -/
def compareSwapped (op : BinaryOp) (left right : Operand) (hasEffects : Bool) : GenM Unit := do
  let ty ← NumType.ofTy left.ty
  let n := left.slots
  if hasEffects then
    left.push
    right.push
    build (·.swizzle (2 * n) (swappedHalves n))
  else
    right.push
    left.push
  build (·.binary op ty n)

/-- Compares runs of slots of one number type each, from slot `offset` of `n` on, and leaves a
boolean per run; `results` of them are already on the stack. -/
def compareRuns (op fold : BinaryOp) (n : Nat) : (offset results : Nat) → List (NumType × Nat) →
    Builder → Builder
  | _, _, [], b => b
  | offset, results, (ty, run) :: rest, b =>
    let b := b.pushClone run (2 * n + results - offset)
    let b := b.pushClone run (n + results + run - offset)
    compareRuns op fold n (offset + run) (results + 1) rest
      (foldBooleans fold run (b.binary op ty run))

/-- Runs of equal elements. -/
def runs (kinds : List NumType) : List (NumType × Nat) :=
  (kinds.splitBy (· == ·)).filterMap fun run => run.head?.map fun kind => (kind, run.length)

/-- Equality or inequality of whole values. -/
def equality (left right : Operand) (negated : Bool) : GenM Unit := do
  let n := left.slots
  let (op, fold) : BinaryOp × BinaryOp :=
    if negated then (.cmpNe, .bitwiseOr) else (.cmpEq, .bitwiseAnd)
  let kinds ← left.ty.slotKinds.mapM fun kind => (NumType.ofKind kind left.ty : GenM NumType)
  left.push
  right.push
  match runs kinds with
  | [] => build fun b => (b.discard (2 * n)).pushConstant (Word.ofBool !negated) 1
  | [(kind, _)] => build fun b => foldBooleans fold n (b.binary op kind n)
  | runs =>
    build fun b => foldBooleans fold runs.length (compareRuns op fold n 0 0 runs b)
    let range ← scratch .bool
    build fun b => ((b.popSlotsUnmasked range).discard (2 * n)).pushSlots .value range

/-! ## Choices -/

/-- Chooses between two values that are computed in all lanes. -/
def select (n : Nat) (test ifTrue ifFalse : GenM Unit) : GenM Unit := do
  ifFalse
  ifTrue
  test
  build fun b => (b.pushDuplicates (n - 1)).ternary .mix .int n

/-- Chooses between two values each of which is computed in the lanes that need it. A side that is
not trivial is skipped if no lane does. -/
def choose (n : Nat) (test : GenM Unit) (ifTrue : GenM Unit) (trueIsTrivial : Bool)
    (ifFalse : GenM Unit) (falseIsTrivial : Bool) : GenM Unit := do
  build Builder.enableMaskWrites
  let testStack ← createStack
  onStack testStack do
    build (·.pushMask .condition)
    test
    build (·.emit (.mergeCondition false))
  let falseLabel ← newLabel
  let exitLabel ← newLabel
  if !trueIsTrivial then build (·.branch .noLanesActive falseLabel)
  ifTrue
  build (·.label falseLabel)
  onStack testStack (build (·.emit (.mergeCondition true)))
  if !falseIsTrivial then build (·.branch .noLanesActive exitLabel)
  ifFalse
  build fun b => (b.select n).label exitLabel
  onStack testStack (build fun b => (b.discard 1).popMask .condition)
  recycleStack testStack
  build Builder.disableMaskWrites

/-- The conditional operator. -/
def ternary (n : Nat) (testExpr trueExpr falseExpr : Expr) (test ifTrue ifFalse : Operand) :
    GenM Unit :=
  let hasEffects :=
    testExpr.hasSideEffects || trueExpr.hasSideEffects || falseExpr.hasSideEffects
  if !hasEffects && trueExpr.isTrivial && falseExpr.isTrivial then
    select n test.push ifTrue.push ifFalse.push
  else choose n test.push ifTrue.push trueExpr.isTrivial ifFalse.push falseExpr.isTrivial

/-- A logical operation of booleans both of which are computed. -/
def logical (op : BinaryOp) (left right : Operand) : GenM Unit := do
  left.push
  right.push
  build (·.binary op .int 1)

/-! ## Assignments -/

/-- Stores the value that a computation pushes, given the place, and leaves it on the stack. -/
def assign (ctx : CodeContext) (target : Operand) (value : Place → GenM Unit) : GenM Unit := do
  let place ← target.place
  value place
  storePlace ctx place
  releasePlace place

/-- Adds or subtracts one. -/
def stepByOne (op : Operator) (ty : Ty) : GenM Unit := do
  let n := ty.slotCount
  let step ← match op with
    | .plusPlus => pure BinaryOp.add
    | .minusMinus => pure BinaryOp.sub
    | op => throw (.stepOperator op.symbol)
  build (·.pushConstant (literalBits 1.0 ty.numberKind) n)
  let kind ← NumType.ofTy ty
  build (·.binary step kind n)

/-- A prefix operation. -/
def prefixed (ctx : CodeContext) (op : Operator) (x : Operand) : GenM Unit := do
  let n := x.slots
  match op with
  | .plus => x.push
  | .minus =>
    x.push
    negate x.ty n
  | .logicalNot =>
    x.push
    complement n
  | .bitwiseNot =>
    x.push
    build (·.unary .bitwiseNot .int n)
  | .plusPlus | .minusMinus =>
    assign ctx x fun place => do
      pushPlace place
      stepByOne op x.ty
  | op => throw (.prefixOperator op.symbol)

/-- A postfix operation, whose value is the old one. -/
def postfixed (ctx : CodeContext) (op : Operator) (x : Operand) : GenM Unit := do
  let n := x.slots
  let place ← x.place
  pushPlace place
  build (·.pushClone n n)
  stepByOne op x.ty
  storePlace ctx place
  build (·.discard n)
  releasePlace place

/-- A binary operation. The expressions of the operands tell whether they have side effects. -/
def binary (ctx : CodeContext) (result : Ty) (op : Operator) (leftExpr rightExpr : Expr)
    (left right : Operand) : GenM Unit := do
  let falsePush := build (·.pushConstant (literalBits 0.0 .boolean) 1)
  let truePush := build (·.pushConstant (literalBits 1.0 .boolean) 1)
  match op with
  | .comma =>
    left.push
    build (·.discard left.slots)
    right.push
  | .assign => assign ctx left fun _ => right.push
  | .plusEq | .minusEq | .starEq | .slashEq | .percentEq | .shlEq | .shrEq | .bitwiseAndEq
  | .bitwiseOrEq | .bitwiseXorEq =>
    assign ctx left fun place => do
      pushPlace place
      pushArithmetic op.removeAssignment left.ty right left.ty
  | .logicalAnd =>
    if rightExpr.hasSideEffects then
      choose result.slotCount left.push right.push rightExpr.isTrivial falsePush true
    else logical .bitwiseAnd left right
  | .logicalOr =>
    if rightExpr.hasSideEffects then
      choose result.slotCount left.push truePush true right.push rightExpr.isTrivial
    else logical .bitwiseOr left right
  | .logicalXor => logical .cmpNe left right
  | .eqEq => equality left right false
  | .neq => equality left right true
  | .lt => compare .cmpLt left right
  | .ltEq => compare .cmpLe left right
  | .gt =>
    compareSwapped .cmpLt left right (leftExpr.hasSideEffects || rightExpr.hasSideEffects)
  | .gtEq =>
    compareSwapped .cmpLe left right (leftExpr.hasSideEffects || rightExpr.hasSideEffects)
  | op => arithmetic op left right result

/-! ## Conversions -/

/-- Converts `n` slots on top of the stack from one number kind to another. -/
def castTop (source target : NumberKind) (n : Nat) : GenM Unit :=
  if source = target then pure ()
  else
    match source, target with
    | .signed, .unsigned | .unsigned, .signed => pure ()
    | .signed, .float => build (·.unary .castToFloatFromInt .int n)
    | .unsigned, .float => build (·.unary .castToFloatFromUint .uint n)
    | .float, .signed => build (·.unary .castToIntFromFloat .float n)
    | .float, .unsigned => build (·.unary .castToUintFromFloat .float n)
    | .boolean, .float | .boolean, .signed | .boolean, .unsigned =>
      build fun b => (b.pushConstant (literalBits 1.0 target) n).binary .bitwiseAnd .int n
    | .float, .boolean => build fun b => (b.pushZeros n).binary .cmpNe .float n
    | .signed, .boolean | .unsigned, .boolean =>
      build fun b => (b.pushZeros n).binary .cmpNe .int n
    | _, _ => throw .conversion

/-- A constructor with one operand. -/
def convert (conversion : Conversion) (ty : Ty) (x : Operand) : GenM Unit := do
  x.push
  match conversion with
  | .cast => castTop x.ty.numberKind ty.numberKind ty.slotCount
  | .splat => build (·.pushDuplicates (ty.slotCount - 1))
  | .diagonal => build (·.emit (.diagonal ⟨ty.columns, ty.rows⟩))
  | .resize => build (·.emit (.resize ⟨x.ty.columns, x.ty.rows⟩ ⟨ty.columns, ty.rows⟩))

end Operand

end RasterShader
