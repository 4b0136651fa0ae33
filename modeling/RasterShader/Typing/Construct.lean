import RasterShader.Dialect
import RasterShader.Typing.Coerce

/-!
# Type checking of constructors

`T(a, b, …)` builds arrays and structs from their elements, and scalars, vectors and matrices from
parts whose slots add up, or by converting a single value.
-/

namespace RasterShader

namespace Typing

/-- A constructor of constants becomes a constant when optimization is on. -/
def foldConstructor (dialect : Dialect) (e : Expr) : Expr :=
  match if dialect.settings.optimize then e.constantValue? else none with
  | some values => .ofConstant e.span values e.ty
  | none => e

/-- Checks an array constructor. An unsized array takes its count from the arguments. -/
def constructArray (dialect : Dialect) (span : Span) (ty : Ty) (arguments : List Expr) :
    Checked Expr := do
  if dialect.strictEs2 then .refuse span (.arrayConstructor ty) (.poison span)
  else if ty.arraySize?.any (· != arguments.length) then
    .refuse span (.partCount ty .elements (ty.arraySize?.getD 0) arguments.length) (.poison span)
  else
    let element := ty.component
    let parts ← Expr.coerceAll arguments (List.replicate arguments.length element)
    if Expr.anyPoison parts then return .poison span
    let sized := Ty.array element (some arguments.length)
    return foldConstructor dialect (.assemble ⟨span, sized⟩ .array parts)

/-- Checks a struct constructor. -/
def constructStruct (dialect : Dialect) (span : Span) (ty : Ty) (arguments : List Expr) :
    Checked Expr := do
  let fields := ty.fields
  if fields.length != arguments.length then
    .refuse span (.partCount ty .elements fields.length arguments.length) (.poison span)
  else
    let parts ← Expr.coerceAll arguments (fields.map FieldOf.ty)
    if Expr.anyPoison parts then return .poison span
    return foldConstructor dialect (.assemble ⟨span, ty⟩ .struct parts)

/-- A constructor with one scalar, vector or matrix argument that converts it as a whole: a cast,
a splat, a diagonal matrix or another size of matrix. -/
def constructSingle? (dialect : Dialect) (span : Span) (ty : Ty) (argument : Expr) : Option Expr :=
  let source := argument.ty
  let component := ty.component
  if !source.isShaped then none
  else if ty.isScalar then
    if source.isScalar then some ((argument.castUnlessSame ty).withSpan span) else none
  else if source.isScalar then
    let conversion : Conversion := if ty.isVector then .splat else .diagonal
    some (foldConstructor dialect
      (.convert ⟨span, ty⟩ conversion (argument.castUnlessSame component)))
  else if source.sameShape ty then some ((argument.castUnlessSame ty).withSpan span)
  else if source.isMatrix && ty.isMatrix then do
    let sameKind ← component.toCompound? source.columns source.rows
    some (foldConstructor dialect
      (.convert ⟨span, ty⟩ .resize (argument.castUnlessSame sameKind)))
  else none

/-- A part of a vector or matrix constructor is of a wrong type. A matrix feeds only matrices, and
vectors with as many slots. -/
def isInvalidPart (ty part : Ty) : Bool :=
  !part.isShaped || (part.isMatrix && !ty.isMatrix && ty.slotCount != part.slotCount)

/-- The parts of a vector or matrix constructor, converted to its component type. There is nothing
when a part is of a wrong type. -/
def compoundParts (ty : Ty) : List Expr → Checked (Option (List Expr))
  | [] => pure (some [])
  | part :: rest => do
    if isInvalidPart ty part.ty then .refuse part.span (.constructorPart part.ty ty) none
    else
      match ty.component.toCompound? part.ty.columns part.ty.rows with
      | none => return none
      | some target =>
        let others ← compoundParts ty rest
        return others.map (part.castUnlessSame target :: ·)

/-- Checks a vector or matrix constructor whose parts have to add up. -/
def constructCompound (dialect : Dialect) (span : Span) (ty : Ty) (arguments : List Expr) :
    Checked Expr := do
  match ← compoundParts ty arguments with
  | none => return .poison span
  | some parts =>
    let total := (arguments.map (·.ty.slotCount)).foldr (· + ·) 0
    if total != ty.slotCount then
      .refuse span (.partCount ty .scalars ty.slotCount total) (.poison span)
    else return foldConstructor dialect (.assemble ⟨span, ty⟩ .compound parts)

/-- Checks `T(arguments)`. -/
def construct (dialect : Dialect) (span : Span) (ty : Ty) (arguments : List Expr) :
    Checked Expr :=
  if Expr.anyPoison arguments || ty.isPoison then pure (.poison span)
  else if ty.isArray then constructArray dialect span ty arguments
  else if ty.isStruct && !ty.isInterfaceBlock && !ty.hasEffect then
    constructStruct dialect span ty arguments
  else if ty.isShaped then
    match arguments with
    | [] => .refuse span (.partCount ty .scalars ty.slotCount 0) (.poison span)
    | [argument] =>
      match constructSingle? dialect span ty argument with
      | some e => pure e
      | none => constructCompound dialect span ty [argument]
    | arguments => constructCompound dialect span ty arguments
  else .refuse span (.notConstructible ty) (.poison span)

end Typing

end RasterShader
