import RasterShader.Intrinsic
import RasterShader.Ty.Coercion

/-!
# Variables and function declarations

Both carry a number that identifies them across a compilation and the built-in modules it uses,
so that two declarations of one name stay apart.
-/

namespace RasterShader

/-- Where a variable lives. -/
inductive Storage where
  | global
  | interfaceBlock
  | local
  | parameter
deriving DecidableEq, Repr, Inhabited

/-- A named storage location. -/
structure Variable where
  id : Nat
  name : String
  ty : Ty
  modifiers : Modifiers
  storage : Storage
  span : Span
  /-- Declared by a built-in module. -/
  builtin : Bool
deriving Inhabited

namespace Variable

/-- Declared `uniform`. -/
def isUniform (v : Variable) : Bool := v.modifiers.isUniform

/-- Declared `const`. -/
def isConst (v : Variable) : Bool := v.modifiers.isConst

/-- Declared outside of any function. -/
def isGlobal (v : Variable) : Bool := v.storage == .global || v.storage == .interfaceBlock

end Variable

/-- A function's signature. -/
structure FunctionDecl where
  id : Nat
  name : String
  parameters : List Variable
  returnType : Ty
  modifiers : Modifiers
  /-- Set for built-in functions that are operations of the pipeline. -/
  intrinsic : Option Intrinsic
  builtin : Bool
  span : Span
deriving Inhabited

namespace FunctionDecl

/-- The program's entry point. -/
def isMain (f : FunctionDecl) : Bool := f.name == "main"

/-- Marked as depending on its arguments only. -/
def isPure (f : FunctionDecl) : Bool := f.modifiers.flags.contains .pure

/-- Some type in the signature is a placeholder. -/
def isGeneric (f : FunctionDecl) : Bool :=
  f.returnType.isGeneric || f.parameters.any (·.ty.isGeneric)

/-- Same name and parameter types, which is how prototypes are paired with definitions. -/
def matchesSignature (f g : FunctionDecl) : Bool :=
  f.name == g.name && f.parameters.length == g.parameters.length &&
    (f.parameters.zip g.parameters).all fun (a, b) => a.ty.same b.ty

/-- The signature without the function's own modifiers. -/
def signature (f : FunctionDecl) : String :=
  let parameter (p : Variable) := s!"{p.modifiers.text}{p.ty.name} {p.name}"
  let parameters := String.intercalate ", " (f.parameters.map parameter)
  s!"{f.returnType.name} {f.name}({parameters})"

/-- The signature as it is declared. -/
def text (f : FunctionDecl) : String := f.modifiers.text ++ f.signature

end FunctionDecl

end RasterShader
