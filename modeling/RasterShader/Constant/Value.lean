import RasterShader.Ir.Expr

/-!
# Values of constant expressions

The value of a compile-time constant is one double per slot. Integers and booleans are exact;
floats are rounded to single precision after every operation, so that a folded result is what the
pipeline would compute.

`Expr.constantValue?` evaluates, `Expr.ofConstant` builds an expression with given slot values.
-/

namespace RasterShader

namespace Constant

/-! ## Numbers of a kind -/

/-- The 32-bit signed integer congruent to `n`. -/
def wrapSigned (n : Int) : Int := n.bmod 4294967296

/-- The 32-bit unsigned integer congruent to `n`. -/
def wrapUnsigned (n : Int) : Int := n % 4294967296

/-- Keeps a double between two bounds. -/
def clamp (x lo hi : Float) : Float :=
  let x := if x < lo then lo else x
  if hi < x then hi else x

/-- Converts a slot value to another number kind the way the pipeline does: floats are rounded,
integers truncated and saturated, and everything but zero is true. -/
def cast (value : Float) : NumberKind → Float
  | .float => Double.toSingle value
  | .signed =>
    if value.isNaN then 0.0 else clamp (Double.integerPart value) (-2147483648.0) 2147483647.0
  | .unsigned => if value.isNaN then 0.0 else clamp (Double.integerPart value) 0.0 4294967295.0
  | .boolean => if value != 0.0 then 1.0 else 0.0
  | .nonnumeric => value

/-- Wraps an integer to 32 bits and rounds a float to single precision. -/
def normalize (value : Float) : NumberKind → Float
  | .float => Double.toSingle value
  | .signed => Float.ofInt (wrapSigned (Double.truncated value))
  | .unsigned => Float.ofInt (wrapUnsigned (Double.truncated value))
  | _ => value

/-! ## Lists of slot values -/

/-- `count` values from `start` on, if there are that many. -/
def slice? (values : List Float) (start count : Nat) : Option (List Float) :=
  if start + count ≤ values.length then some ((values.drop start).take count) else none

/-- A value on the diagonal of a matrix by columns, zero elsewhere. -/
def diagonal (columns rows : Nat) (value : Float) : List Float :=
  (List.range columns).flatMap fun c =>
    (List.range rows).map fun r => if c = r then value else 0.0

/-- A matrix by columns cut or extended to other dimensions, with ones on the added diagonal. -/
def resize (source : List Float) (fromColumns fromRows columns rows : Nat) : List Float :=
  (List.range columns).flatMap fun c =>
    (List.range rows).map fun r =>
      if c < fromColumns && r < fromRows then (source[c * fromRows + r]?).getD 0.0
      else if c = r then 1.0
      else 0.0

/-- The first slot of a scalar integer's value, as an integer. -/
def integer? (ty : Ty) (values : Option (List Float)) : Option Int := do
  let values ← values
  let first ← values.head?
  if ty.isScalar && ty.isInteger then some (Double.truncated first) else none

end Constant

namespace Expr

mutual

/-- The slot values of a compile-time constant. -/
def constantValue? : Expr → Option (List Float)
  | literal _ v => some [v]
  | reference _ v init _ => if v.isConst then constantOption? init else none
  | convert h conversion operand => do
    let values ← constantValue? operand
    match conversion with
    | .cast => return values.map (Constant.cast · h.ty.numberKind)
    | .splat => return List.replicate h.ty.slotCount (← values.head?)
    | .diagonal => return Constant.diagonal h.ty.columns h.ty.rows (← values.head?)
    | .resize =>
      return Constant.resize values operand.ty.columns operand.ty.rows h.ty.columns h.ty.rows
  | assemble _ _ parts => constantValues? parts
  | swizzle _ base components => do
    let values ← constantValue? base
    components.mapM (values[·]?)
  | field h base i => do
    let values ← constantValue? base
    Constant.slice? values (base.ty.fieldSlotOffset i) h.ty.slotCount
  | index h base i => do
    let values ← constantValue? base
    match ← Constant.integer? i.ty (constantValue? i) with
    | .ofNat n => Constant.slice? values (n * h.ty.slotCount) h.ty.slotCount
    | .negSucc _ => none
  | prefixed h .minus operand => do
    let values ← constantValue? operand
    return values.map fun v => Constant.normalize (-v) h.ty.numberKind
  | _ => none

/-- The slot values of an initializer, when there is one and it is constant. -/
def constantOption? : Option Expr → Option (List Float)
  | none => none
  | some e => constantValue? e

/-- The slot values of several constants one after the other. -/
def constantValues? : List Expr → Option (List Float)
  | [] => some []
  | e :: rest => do
    let first ← constantValue? e
    let others ← constantValues? rest
    return first ++ others

end

/-- The value of a constant scalar integer. -/
def constantInt? (e : Expr) : Option Int := Constant.integer? e.ty e.constantValue?

mutual

/-- An expression of a type with given slot values. -/
def ofConstant (span : Span) (values : List Float) : Ty → Expr
  | .scalar s => literal ⟨span, .scalar s⟩ (values.head?.getD 0.0)
  | .vector s columns =>
    let first := values.head?.getD 0.0
    if values.all (·.toBits == first.toBits) then
      convert ⟨span, .vector s columns⟩ .splat (literal ⟨span, .scalar s⟩ first)
    else
      assemble ⟨span, .vector s columns⟩ .compound
        (values.map (literal ⟨span, .scalar s⟩ ·))
  | .matrix s columns rows =>
    assemble ⟨span, .matrix s columns rows⟩ .compound (values.map (literal ⟨span, .scalar s⟩ ·))
  | .array element count =>
    let stride := element.slotCount
    let parts := (List.range (count.getD 0)).map fun i =>
      ofConstant span ((values.drop (i * stride)).take stride) element
    assemble ⟨span, .array element count⟩ .array parts
  | .struct name fields isBlock =>
    assemble ⟨span, .struct name fields isBlock⟩ .struct (ofConstants span values fields)
  | _ => poison span

/-- Expressions of the types of a struct's fields, with their slot values one after the other. -/
def ofConstants (span : Span) (values : List Float) : List (FieldOf Ty) → List Expr
  | [] => []
  | ⟨_, ty, _, _⟩ :: rest =>
    ofConstant span (values.take ty.slotCount) ty ::
      ofConstants span (values.drop ty.slotCount) rest

end

end Expr

end RasterShader
