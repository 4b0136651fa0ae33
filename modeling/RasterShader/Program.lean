import RasterShader.Library.Modules

/-!
# Programs

A `Program` is a source text that has been read and type-checked without an issue, on top of the
built-in modules for its kind.
-/

namespace RasterShader

/-- A type-checked program. -/
structure Program where
  /-- The rules it was read by, version directives included. -/
  dialect : Dialect
  source : String
  /-- The built-in modules it builds on, nearest first. -/
  modules : List Module
  elements : List Element
deriving Inhabited

namespace Program

/-- Reads a source text on top of given modules. Without a program there is at least one report. -/
def readOn (library : Library) (dialect : Dialect) (source : String) :
    Except (List Report) Program :=
  let session := (Session.start dialect library.modules false library.nextId).read source
  let session := (Typing.finishProgram.run session).2
  if session.sink.delivered.isEmpty then
    .ok ⟨session.dialect, source, session.modules, session.elements⟩
  else .error session.sink.delivered

/-- Reads a source text on top of the modules for its kind. -/
def read (dialect : Dialect) (source : String) : Except (List Report) Program :=
  readOn (.forKind dialect.kind) dialect source

/-- The functions defined in the program. -/
def functions (program : Program) : List FunctionDef := definitions program.elements

/-- The entry point. -/
def main? (program : Program) : Option FunctionDef := program.functions.find? (·.decl.isMain)

/-- The definition of a function, in the program or in a built-in module. -/
def findDefinition? (program : Program) (decl : FunctionDecl) : Option FunctionDef :=
  match RasterShader.findDefinition? program.functions decl with
  | some f => some f
  | none => Module.findDefinition? program.modules decl

/-- The global variables with their initializers, blocks included. -/
def globals (program : Program) : List (Variable × Option Expr) :=
  program.elements.filterMap Element.declared?

/-- Source text of the program. -/
def text (program : Program) : String :=
  String.join (program.elements.map fun e => e.text ++ "\n")

end Program

end RasterShader
