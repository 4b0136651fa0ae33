import RasterShader.Dialect
import RasterShader.Ir.Stmt

/-!
# Program elements

What a program consists of at the top level, as source text and as a place to look definitions
up.
-/

namespace RasterShader

/-- A function with its body. -/
structure FunctionDef where
  decl : FunctionDecl
  body : Stmt
deriving Inhabited

/-- Top-level elements, in source order. -/
inductive Element where
  | global (span : Span) (v : Variable) (value : Option Expr)
  | interfaceBlock (span : Span) (v : Variable) (typeName instanceName : String)
  | function (definition : FunctionDef)
  | prototype (decl : FunctionDecl)
  | struct (span : Span) (ty : Ty)
  | extension (span : Span) (name behavior : String)
deriving Inhabited

namespace Element

/-- Place in the source; a function's is that of its signature. -/
def span : Element → Span
  | global s .. | interfaceBlock s .. | struct s _ | extension s .. => s
  | function f => f.decl.span
  | prototype decl => decl.span

/-- The definition an element holds. -/
def definition? : Element → Option FunctionDef
  | function f => some f
  | _ => none

/-- The variable an element declares, with its initializer. -/
def declared? : Element → Option (Variable × Option Expr)
  | global _ v value => some (v, value)
  | interfaceBlock _ v _ _ => some (v, none)
  | _ => none

/-- The element as source text. -/
def text : Element → String
  | global _ v value => Stmt.declarationText v value
  | interfaceBlock _ v typeName instanceName =>
    let block :=
      match v.ty with
      | .array element _ => element
      | ty => ty
    let fields := block.fields.map fun f => s!"    {f.modifiers.text}{f.ty.name} {f.name};\n"
    let size := (v.ty.arraySize?.map fun n => s!"[{n}]").getD ""
    let instance_ := if instanceName.isEmpty then "" else " " ++ instanceName ++ size
    v.modifiers.text ++ typeName ++ " \x7b\n" ++ String.join fields ++ "\x7d" ++ instance_ ++ ";"
  | function f => f.decl.text ++ "\n" ++ f.body.text
  | prototype decl => decl.text ++ ";"
  | struct _ ty =>
    let fields := ty.fields.map fun f =>
      let (base, suffix) := Stmt.splitArraySuffix f.ty.name
      s!"    {f.modifiers.text}{base} {f.name}{suffix};\n"
    "struct " ++ ty.name ++ " \x7b\n" ++ String.join fields ++ "\x7d;"
  | extension _ name behavior => s!"#extension {name} : {behavior}"

end Element

/-- The definitions among elements, in order. -/
def definitions (elements : List Element) : List FunctionDef :=
  elements.filterMap Element.definition?

/-- The definition of a declaration among others: the one with the same identity, or else the
first with the same signature. -/
def findDefinition? (functions : List FunctionDef) (decl : FunctionDecl) : Option FunctionDef :=
  match functions.find? (·.decl.id == decl.id) with
  | some f => some f
  | none => functions.find? (·.decl.matchesSignature decl)

end RasterShader
