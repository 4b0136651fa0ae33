import RasterShader.Analysis.Effects
import RasterShader.Dialect
import RasterShader.Scope
import RasterShader.Typing.Coerce

/-!
# Type checking of names, elements, fields and swizzles

A swizzle mask names components by letter and may also hold the constants 0 and 1. The components
named are taken from the base in one swizzle, so that the base is evaluated once; constants are
put in by a constructor and a second swizzle that restores the order of the mask.
-/

namespace RasterShader

namespace Typing

/-- Checks a name used as a value. -/
def identifier (span : Span) (name : String) (symbol : Option Symbol) : Checked Expr :=
  match symbol with
  | some (.value v init) => pure (.ofVariable span v init)
  | some (.member owner i) =>
    match owner.ty.fields[i]? with
    | some f => pure (.field ⟨span, f.ty⟩ (.ofVariable span owner none) i)
    | none => pure (.poison span)
  | some (.type _) => .refuse span .bareTypeName (.poison span)
  | some (.functions _) => .refuse span .bareFunctionName (.poison span)
  | none => .refuse span (.unknownIdentifier name) (.poison span)

/-- The type of an element of an array, vector or matrix. -/
def elementType? (ty : Ty) : Option Ty :=
  match ty with
  | .array element _ => some element
  | .vector s _ => some (.scalar s)
  | .matrix s _ rows => (Ty.scalar s).toCompound? rows 1
  | _ => none

/-- Number of elements, when it is known. -/
def elementCount? (ty : Ty) : Option Nat := if ty.isArray then ty.arraySize? else some ty.columns

/-- A constant index is out of range. -/
def indexOutOfRange (ty : Ty) (i : Int) : Bool :=
  i < 0 || ((elementCount? ty).map fun n => decide ((n : Int) ≤ i)).getD false

/-- Checks `base[i]`. Constant indices have to be in range. -/
def element (base i : Expr) (place : Span) : Checked Expr := do
  let span := base.span.join place
  if base.isPoison || i.isPoison then return .poison span
  else
    match elementType? base.ty with
    | none =>
      if base.ty.isMatrix then return .poison span
      else .refuse span (.notIndexable base.ty) (.poison span)
    | some ty =>
      let i ← if i.ty.isScalar && i.ty.isUnsigned then pure i else i.coerce .int
      if i.isPoison then return .poison span
      else
        match i.constantInt? with
        | some n =>
          if indexOutOfRange base.ty n then
            .refuse i.span (.indexOutOfRange n base.ty) (.poison span)
          else return .index ⟨span, ty⟩ base i
        | none => return .index ⟨span, ty⟩ base i

/-! ## Swizzles -/

/-- One letter of a swizzle mask. -/
inductive MaskEntry where
  | component (place : Nat)
  | zero
  | one
deriving DecidableEq, Repr

/-- What a letter of a mask stands for. -/
def MaskEntry.ofLetter? : Char → Option MaskEntry
  | 'x' | 'r' | 's' => some (.component 0)
  | 'y' | 'g' | 't' => some (.component 1)
  | 'z' | 'b' | 'p' => some (.component 2)
  | 'w' | 'a' | 'q' => some (.component 3)
  | '0' => some .zero
  | '1' => some .one
  | _ => none

/-- The component a mask entry names. -/
def MaskEntry.component? : MaskEntry → Option Nat
  | component n => some n
  | _ => none

/-- The letters of a mask on a base with the given number of columns, or the first letter that has
no meaning there. -/
def readMask (columns : Nat) : List Char → Except Char (List MaskEntry)
  | [] => .ok []
  | c :: rest =>
    match MaskEntry.ofLetter? c with
    | some (.component n) => if n < columns then (readMask columns rest).map (.component n :: ·)
      else .error c
    | some entry => (readMask columns rest).map (entry :: ·)
    | none => .error c

/-- The components name every column in order. -/
def isIdentity (components : List Nat) (columns : Nat) : Bool := components == List.range columns

/-- The given components of a value. Selecting all of them in order is the value itself, and a
swizzle of a swizzle becomes one. -/
def select? (span : Span) (components : List Nat) : Expr → Option Expr
  | base@(.swizzle _ inner innerComponents) => do
    let _ ← base.ty.component.toCompound? components.length 1
    if isIdentity components base.ty.columns then some base
    else select? span (components.map fun c => (innerComponents[c]?).getD 0) inner
  | base => do
    let ty ← base.ty.component.toCompound? components.length 1
    if isIdentity components base.ty.columns then some base
    else some (.swizzle ⟨span, ty⟩ base components)

/-- For each entry of a mask its place after the components named are put first and the constants
after them. -/
def maskOrder : (nextComponent nextConstant : Nat) → List MaskEntry → List Nat
  | _, _, [] => []
  | i, j, .component _ :: rest => i :: maskOrder (i + 1) j rest
  | i, j, _ :: rest => j :: maskOrder i (j + 1) rest

/-- The constants of a mask as literals of the base's component type. -/
def maskConstants (span : Span) (scalar : Ty) (entries : List MaskEntry) : List Expr :=
  entries.filterMap fun
    | .component _ => none
    | .zero => some (.literal ⟨span, scalar⟩ (Constant.cast 0.0 scalar.numberKind))
    | .one => some (.literal ⟨span, scalar⟩ (Constant.cast 1.0 scalar.numberKind))

/-- A swizzle with constants among its entries. -/
def selectWithConstants? (dialect : Dialect) (span : Span) (base : Expr)
    (entries : List MaskEntry) : Option Expr := do
  let scalar := base.ty.component
  let named := entries.filterMap MaskEntry.component?
  let taken ← if named.isEmpty then some [] else (select? span named base).map ([·])
  let parts := taken ++ maskConstants span scalar entries
  let ty ← scalar.toCompound? entries.length 1
  let compound :=
    match parts with
    | [part] => part
    | parts => .assemble ⟨span, ty⟩ .compound parts
  let result := (select? span (maskOrder 0 named.length entries) compound).getD (.poison span)
  let result :=
    match if dialect.settings.optimize then result.constantValue? else none with
    | some values => .ofConstant span values result.ty
    | none => result
  -- A mask without components still evaluates a base with side effects.
  if named.isEmpty && base.hasSideEffects then
    some (.binary ⟨span, result.ty⟩ base .comma result)
  else some result

/-- Checks `base.mask`. -/
def swizzle (dialect : Dialect) (base : Expr) (mask : String) (span : Span) : Checked Expr :=
  if 4 < mask.length then .refuse span .swizzleTooLong (.poison span)
  else
    match readMask base.ty.columns mask.toList with
    | .error c => .refuse span (.swizzleComponent c) (.poison span)
    | .ok entries =>
      let named := entries.filterMap MaskEntry.component?
      if entries.isEmpty then .refuse span .emptySwizzle (.poison span)
      else if named.length = entries.length then
        pure ((select? span named base).getD (.poison span))
      else pure ((selectWithConstants? dialect span base entries).getD (.poison span))

/-- Checks `base.name`: a field of a struct, or a swizzle of a scalar or vector. -/
def member (dialect : Dialect) (base : Expr) (name : String) (place : Span) : Checked Expr :=
  let span := base.span.join place
  let missing : Checked Expr := .refuse span (.noField base.ty name) (.poison span)
  if base.isPoison then pure base
  else if base.ty.isStruct then
    match base.ty.fields.findIdx? (·.name == name) with
    | some i =>
      match base.ty.fields[i]? with
      | some f => pure (.field ⟨span, f.ty⟩ base i)
      | none => missing
    | none => missing
  else if base.ty.isScalar || base.ty.isVector then swizzle dialect base name span
  else missing

end Typing

end RasterShader
