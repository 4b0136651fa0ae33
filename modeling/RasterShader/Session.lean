import RasterShader.Dialect
import RasterShader.Ir.Walk
import RasterShader.Scope
import RasterShader.Typing.Checked

/-!
# The state of a compilation

A `Session` holds what has been declared and reported so far while a program or built-in module is
read. Modules that are already finished are below it: their names are in scope and their
definitions can be called.
-/

namespace RasterShader

/-- A finished built-in module. -/
structure Module where
  name : String
  layer : Layer
  elements : List Element
deriving Inhabited

/-- The definition of a function in a module or one of those it builds on, nearest first. -/
def Module.findDefinition? (modules : List Module) (decl : FunctionDecl) : Option FunctionDef :=
  modules.findSome? fun m => RasterShader.findDefinition? (definitions m.elements) decl

/-- The state of a compilation. -/
structure Session where
  dialect : Dialect
  symbols : SymbolTable
  sink : Sink Report
  /-- A built-in module is being read. -/
  isBuiltin : Bool
  /-- The module built on, followed by those it builds on. -/
  modules : List Module
  /-- The function whose body is being read. -/
  function : Option FunctionDecl
  elements : List Element
  loopDepth : Nat
  switchDepth : Nat
  /-- The next free identity of a variable or function. -/
  nextId : Nat
deriving Inhabited

namespace Session

/-- A session in which nothing has been read. -/
def start (dialect : Dialect) (modules : List Module) (isBuiltin : Bool) (nextId : Nat) :
    Session where
  dialect := dialect
  symbols := .enclosedBy (modules.map Module.layer) isBuiltin
  sink := .empty
  isBuiltin := isBuiltin
  modules := modules
  function := none
  elements := []
  loopDepth := 0
  switchDepth := 0
  nextId := nextId

/-- A `continue` is permitted here. -/
def inLoop (s : Session) : Bool := 0 < s.loopDepth

/-- A `break` is permitted here. -/
def canBreak (s : Session) : Bool := 0 < s.loopDepth || 0 < s.switchDepth

/-- Words that start with a dollar sign may be used. -/
def allowsPrivate (s : Session) : Bool :=
  s.isBuiltin || s.dialect.settings.allowPrivateIdentifiers

/-- The function has a body, in what has been read or in a module. -/
def hasDefinition (s : Session) (decl : FunctionDecl) : Bool :=
  (definitions s.elements).any (·.decl.id == decl.id) ||
    (Module.findDefinition? s.modules decl).isSome

end Session

/-- Steps that change the state of a compilation. -/
abbrev SessionM := StateM Session

namespace SessionM

/-- Makes a report. -/
def report (span : Span) (issue : Issue) : SessionM Unit :=
  modify fun s => { s with sink := s.sink.report ⟨span, issue⟩ }

/-- Takes a checked value and makes its reports. -/
def check {α : Type} (x : Checked α) : SessionM α := do
  modify fun s => { s with sink := s.sink.reportAll x.reports }
  return x.value

/-- Reports an issue and gives nothing. -/
def refuse {α : Type} (span : Span) (issue : Issue) : SessionM (Option α) := do
  report span issue
  return none

/-- Changes the names in scope. -/
def modifySymbols (f : SymbolTable → SymbolTable) : SessionM Unit :=
  modify fun s => { s with symbols := f s.symbols }

/-- Takes a fresh identity. -/
def freshId : SessionM Nat :=
  modifyGet fun s => (s.nextId, { s with nextId := s.nextId + 1 })

/-- Adds a top-level element. -/
def addElement (e : Element) : SessionM Unit :=
  modify fun s => { s with elements := s.elements ++ [e] }

/-- Declares a name, or reports at `span` that it is taken. -/
def declare (span : Span) (name : String) (symbol : Symbol) : SessionM Bool := do
  match (← get).symbols.insert? name symbol with
  | some symbols =>
    modify fun s => { s with symbols }
    return true
  | none =>
    report span (.alreadyDefined name)
    return false

/-- Reports every keyword that is not permitted. -/
def checkModifiers (modifiers : Modifiers) (permitted : ModifierFlags) : SessionM Unit :=
  (modifiers.flags.remove permitted).names.forM fun name =>
    report modifiers.span (.modifierNotPermitted name)

end SessionM

end RasterShader
