import RasterShader.Constant.Fold
import RasterShader.Ir.Walk

/-!
# Trip counts of loops

A loop `for (T i = a; i < b; i += c)` with constants `a`, `b` and `c`, whose body leaves the index
alone, runs its body a number of times that is known at compile time. `TripInfo.ofLoop` finds that
number by stepping the index, and otherwise tells what is in the way (`TripObstacle`).
-/

namespace RasterShader

/-- Why the number of trips of a loop is not known. -/
inductive TripObstacle where
  | noDeclaration
  | indexType
  | variableStart
  | noCondition
  | conditionShape
  | variableLimit
  | noStep
  | stepShape
  | variableStep
  | indexModified
  | tooManyTrips
deriving DecidableEq, Repr, Inhabited

/-- What is told of a loop whose number of trips is not known. -/
def TripObstacle.message : TripObstacle → String
  | noDeclaration => "missing init declaration"
  | indexType => "invalid variable type for loop index"
  | variableStart => "loop index initializer must be a constant expression"
  | noCondition => "missing condition"
  | conditionShape => "invalid loop condition"
  | variableLimit => "loop index must be compared with a constant expression"
  | noStep => "missing loop expression"
  | stepShape => "invalid loop expression"
  | variableStep => "loop index must be modified by a constant expression"
  | indexModified => "loop index must not be modified within body of the loop"
  | tooManyTrips => "loop must guarantee termination in fewer iterations"

namespace TripInfo

/-- The most trips a counted loop may have. -/
def maxTrips : Nat := 100000

/-- The value of a constant with one slot. -/
def constantScalar? (e : Expr) : Option Float :=
  match e.constantValue? with
  | some [v] => some v
  | _ => none

/-- The expression is a reference to the index. -/
def isIndex (index : Variable) : Expr → Bool
  | .reference _ v _ _ => v.id == index.id
  | _ => false

/-- The statement holds a reference that writes the index. -/
def writesIndex (index : Variable) (s : Stmt) : Bool :=
  s.nodes.any fun
    | .expression (.reference _ v _ ref) => v.id == index.id && ref != .read
    | _ => false

/-- The outcome of a loop's condition. -/
def holds (op : Operator) (a b : Float) : Bool :=
  match op with
  | .eqEq => a == b
  | .neq => a != b
  | op => op.isRelational && Constant.compare op a b

/-- Trips from a value of the index on, if there are at most `fuel` of them. -/
def countFrom (op : Operator) (limit delta : Float) (single : Bool) :
    (fuel : Nat) → (current : Float) → (count : Nat) → Option Nat
  | 0, current, count => if holds op current limit then none else some count
  | fuel + 1, current, count =>
    if holds op current limit then
      let next := current + delta
      countFrom op limit delta single fuel (if single then Double.toSingle next else next)
        (count + 1)
    else some count

/-- The comparison of a loop's condition and the limit it compares with. -/
def condition (index : Variable) (test : Expr) : Except TripObstacle (Operator × Float) :=
  match test with
  | .binary _ left op right =>
    if !isIndex index left || !(op.isRelational || op.isEquality) then .error .conditionShape
    else
      match constantScalar? right with
      | some limit => .ok (op, limit)
      | none => .error .variableLimit
  | _ => .error .conditionShape

/-- What a loop's last part adds to the index. -/
def step (index : Variable) (next : Expr) : Except TripObstacle Float :=
  match next with
  | .binary _ left op right =>
    if !isIndex index left then .error .stepShape
    else
      match constantScalar? right, op with
      | none, _ => .error .variableStep
      | some v, .plusEq => .ok v
      | some v, .minusEq => .ok (-v)
      | _, _ => .error .stepShape
  | .prefixed _ op operand | .postfixed _ op operand =>
    if !isIndex index operand then .error .stepShape
    else
      match op with
      | .plusPlus => .ok 1.0
      | .minusMinus => .ok (-1.0)
      | _ => .error .stepShape
  | _ => .error .stepShape

/-- The index variable of a loop and its first value. -/
def indexStart (initializer : Option Stmt) : Except TripObstacle (Variable × Float) :=
  match initializer with
  | some (.declare _ index (some value)) =>
    if !index.ty.isScalar || !(index.ty.isFloat || index.ty.isInteger) then .error .indexType
    else
      match constantScalar? value with
      | some v => .ok (index, v)
      | none => .error .variableStart
  | _ => .error .noDeclaration

/-- The value of a part that must be there. -/
def required {α : Type} (obstacle : TripObstacle) : Option α → Except TripObstacle α
  | some a => .ok a
  | none => .error obstacle

/-- Trip information of a loop. The parts are looked at in the order they are written. -/
def ofLoop (initializer : Option Stmt) (test next : Option Expr) (body : Stmt) :
    Except TripObstacle TripInfo := do
  let (index, first) ← indexStart initializer
  let (op, limit) ← condition index (← required .noCondition test)
  let delta ← step index (← required .noStep next)
  if writesIndex index body then throw TripObstacle.indexModified
  match countFrom op limit delta index.ty.isFloat maxTrips first 0 with
  | some count => return ⟨index, first, delta, count⟩
  | none => throw TripObstacle.tooManyTrips

end TripInfo

end RasterShader
