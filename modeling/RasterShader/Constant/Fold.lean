import RasterShader.Constant.Value

/-!
# Folding of constant operations

Binary and prefix operations on constants are carried out at compile time. Integer operations
wrap at 32 bits. Operations that are wrong whatever the program does with them, such as a division
by the constant zero, are errors (`FoldError`); others that cannot be folded are left alone.
-/

namespace RasterShader

/-- Operations on constants that are always wrong. -/
inductive FoldError where
  | divisionByZero
  | shiftOutOfRange
deriving DecidableEq, Repr, Inhabited

/-- The message for a wrong operation. -/
def FoldError.message : FoldError → String
  | divisionByZero => "division by zero"
  | shiftOutOfRange => "shift value out of range"

namespace Constant

/-- Folds one component of a float operation. -/
def foldFloat (op : Operator) (a b : Float) : Option Float :=
  match op with
  | .plus => some (a + b)
  | .minus => some (a - b)
  | .star => some (a * b)
  | .slash => if b == 0.0 then none else some (a / b)
  | _ => none

/-- Folds one component of an operation on 32-bit integers, before wrapping. -/
def foldInteger (isSigned : Bool) (op : Operator) (a b : Int) : Except FoldError (Option Int) :=
  let bits (f : BitVec 32 → BitVec 32 → BitVec 32) : Except FoldError (Option Int) :=
    .ok (some (f (BitVec.ofInt 32 a) (BitVec.ofInt 32 b)).toNat)
  let shifted (f : BitVec 32 → Nat → BitVec 32) : Except FoldError (Option Int) :=
    if 0 ≤ b && b < 32 then .ok (some (f (BitVec.ofInt 32 a) b.toNat).toNat)
    else .error .shiftOutOfRange
  match op with
  | .plus => .ok (some (a + b))
  | .minus => .ok (some (a - b))
  | .star => .ok (some (a * b))
  | .slash => if b = 0 then .error .divisionByZero else .ok (some (a.tdiv b))
  | .percent => if b = 0 then .error .divisionByZero else .ok (some (a.tmod b))
  | .bitwiseAnd => bits (· &&& ·)
  | .bitwiseOr => bits (· ||| ·)
  | .bitwiseXor => bits (· ^^^ ·)
  | .shl => shifted (· <<< ·)
  | .shr => shifted fun x n => if isSigned then x.sshiftRight n else x >>> n
  | _ => .ok none

/-- Folds one component. A float result must be finite. -/
def foldComponent (op : Operator) (kind : NumberKind) (a b : Float) :
    Except FoldError (Option Float) :=
  match kind with
  | .float =>
    match foldFloat op a b with
    | some v => .ok (if (Double.toSingle v).isFinite then some (Double.toSingle v) else none)
    | none => .ok none
  | .signed => do
    let result ← foldInteger true op (Double.truncated a) (Double.truncated b)
    return result.map fun n => Float.ofInt (wrapSigned n)
  | .unsigned => do
    let result ← foldInteger false op (Double.truncated a) (Double.truncated b)
    return result.map fun n => Float.ofInt (wrapUnsigned n)
  | _ => .ok none

/-- Folds components pairwise, giving up at the first that cannot be folded. -/
def foldComponents (op : Operator) (kind : NumberKind) :
    List (Float × Float) → Except FoldError (Option (List Float))
  | [] => .ok (some [])
  | (a, b) :: rest => do
    match ← foldComponent op kind a b with
    | none => return none
    | some v => return (← foldComponents op kind rest).map (v :: ·)

/-- Pairs components; a single value goes with every one of the other side. -/
def pairUp (a b : List Float) : List (Float × Float) :=
  match a, b with
  | [x], ys => ys.map (x, ·)
  | xs, [y] => xs.map (·, y)
  | xs, ys => xs.zip ys

/-- The outcome of a comparison by order. -/
def compare (op : Operator) (x y : Float) : Bool :=
  match op with
  | .lt => x < y
  | .gt => y < x
  | .ltEq => x ≤ y
  | _ => y ≤ x

/-- The outcome of a connective. -/
def connect (op : Operator) (x y : Bool) : Bool :=
  match op with
  | .logicalAnd => x && y
  | .logicalOr => x || y
  | _ => x != y

/-- Folds a binary operation on scalars or vectors, both of them constant. -/
def foldBinary (span : Span) (left : Expr) (op : Operator) (right : Expr) (resultType : Ty) :
    Except FoldError (Option Expr) :=
  let foldable (ty : Ty) := ty.isScalar || ty.isVector
  if op.isAssignment || op == .comma || !foldable left.ty || !foldable right.ty then .ok none
  else
    match left.constantValue?, right.constantValue? with
    | some a, some b =>
      let x := a.head?.getD 0.0
      let y := b.head?.getD 0.0
      if op.isEquality then
        if a.length != b.length then .ok none
        else
          let equal := (a.zip b).all fun (x, y) => x == y
          .ok (some (.boolean span (equal == (op == .eqEq))))
      else if op.isLogical then .ok (some (.boolean span (connect op (x != 0.0) (y != 0.0))))
      else if op.isRelational then
        if max a.length b.length != 1 then .ok none
        else .ok (some (.boolean span (compare op x y)))
      else do
        let values ← foldComponents op resultType.numberKind (pairUp a b)
        return values.map fun vs => .ofConstant span vs resultType
    | _, _ => .ok none

/-- The value of a prefix operation on one slot of a constant. -/
def foldPrefixValue? (op : Operator) (kind : NumberKind) (v : Float) : Option Float :=
  match op, kind with
  | .minus, _ => some (normalize (-v) kind)
  | .plus, _ => some v
  | .logicalNot, _ => some (if v != 0.0 then 0.0 else 1.0)
  | .bitwiseNot, .signed => some (Float.ofInt (wrapSigned (-(Double.truncated v) - 1)))
  | .bitwiseNot, .unsigned => some (Float.ofInt (wrapUnsigned (-(Double.truncated v) - 1)))
  | _, _ => none

/-- Folds a prefix operation on a constant. -/
def foldPrefix? (span : Span) (op : Operator) (operand : Expr) : Option Expr := do
  if operand.ty.isMatrix && op != .minus then none
  let values ← operand.constantValue?
  let folded ← values.mapM (foldPrefixValue? op operand.ty.numberKind)
  return .ofConstant span folded operand.ty

end Constant

end RasterShader
