import RasterShader.Typing.Checked

/-!
# Implicit conversions of expressions

Besides the conversions between types, a literal takes on the scalar type it is combined with, as
long as nothing is lost: an integer literal any numeric type, a float literal any float type.
`coerce` inserts the conversion that is needed, and `markAssigned` checks that an expression names
storage that may be written.
-/

namespace RasterShader

namespace Expr

/-- The literal may take on the scalar type. -/
def adaptsTo (e : Expr) (ty : Ty) : Bool :=
  e.isLiteral && ty.isScalar &&
    ((e.ty.isInteger && ty.isNumber) || (e.ty.isFloat && ty.isFloat))

/-- Cost of converting an expression implicitly to a type, if that is possible. -/
def coercionCost (e : Expr) (ty : Ty) : Option Nat :=
  if e.ty.same ty then some 0
  else if e.adaptsTo ty then some 1
  else e.ty.coercionCost ty

/-- The expression converted to a type of the same shape. Literals and constant constructors are
converted on the spot. -/
def castTo (e : Expr) (ty : Ty) : Expr :=
  match e with
  | literal h v => literal ⟨h.span, ty⟩ (Constant.cast v ty.numberKind)
  | e =>
    match if e.isConstructor then e.constantValue? else none with
    | some values => ofConstant e.span (values.map (Constant.cast · ty.numberKind)) ty
    | none => convert ⟨e.span, ty⟩ .cast e

/-- The expression as a value of the type, converted if it has another one. -/
def castUnlessSame (e : Expr) (ty : Ty) : Expr := if e.ty.same ty then e else e.castTo ty

/-- The expression converted implicitly to a type, or a report that it cannot be. -/
def coerce (e : Expr) (ty : Ty) : Checked Expr :=
  if e.isPoison || ty.isPoison || e.ty.same ty then pure e
  else if (e.coercionCost ty).isNone then
    .refuse e.span (.wrongType ty e.ty) (poison e.span)
  else pure (e.castTo ty)

/-- Expressions converted implicitly to the types they are paired with. -/
def coerceAll : List Expr → List Ty → Checked (List Expr)
  | e :: es, ty :: tys => do
    let first ← e.coerce ty
    let others ← coerceAll es tys
    return first :: others
  | _, _ => pure []

/-- A literal next to an operand of another type takes on that operand's component type. -/
def adaptLiteral (e : Expr) (other : Ty) : Expr :=
  let target := other.component
  if !target.isScalar || target.same e.ty || !e.adaptsTo target then e else e.castTo target

/-- Some expression failed to type-check. -/
def anyPoison (es : List Expr) : Bool := es.any isPoison

/-- The value of a boolean literal. -/
def constantBool? (e : Expr) : Option Bool :=
  if e.ty.isBoolean && e.ty.isScalar then e.literalValue?.map (· != 0.0) else none

/-- The variable may not be written: it is constant, uniform or read-only, or an input of the
stage. -/
def isImmutable (v : Variable) : Bool :=
  let flags := v.modifiers.flags
  flags.intersects (.const ||| .uniform ||| .readonly) ||
    (v.storage != .parameter && flags.contains .input && !flags.contains .output)

/-- The expression names storage that may be written; otherwise a report tells why not. -/
def assignable : Expr → Checked Bool
  | reference h v _ _ =>
    if isImmutable v then .refuse h.span (.immutable v.name) false else pure true
  | field _ base _ | index _ base _ => base.assignable
  | swizzle h base components =>
    if components.Nodup then base.assignable
    else .refuse h.span .repeatedSwizzleTarget false
  | poison _ => pure false
  | e => .refuse e.span .notAssignable false

/-- Nothing is reported about what may be written. -/
theorem reports_assignable {e : Expr} (h : e.assignable.value = true) :
    e.assignable.reports = [] := by
  fun_induction assignable e with
  | case1 | case6 | case7 | case8 => cases h
  | case2 => rfl
  | case3 _ _ _ ih | case4 _ _ _ ih | case5 _ _ _ _ ih => exact ih h

/-- The expression with its variable marked as written, if it may be. -/
def markAssigned (e : Expr) (kind : RefKind) : Checked (Option Expr) := do
  if ← e.assignable then return some (e.withRefKind kind) else return none

end Expr

end RasterShader
