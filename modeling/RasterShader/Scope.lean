import RasterShader.Ir.Expr

/-!
# Names in scope

A `Layer` is the stack of lexical scopes of one program or built-in module; a `SymbolTable` puts
the layer under construction on top of finished ones. A name is looked up from the innermost scope
outward and then through the layers below, and the nearest entry wins (`SymbolTable.lookup?`).

The overloads of a function are kept together: declaring one more copies those that are visible
into the scope of the declaration (`insertFunction`).
-/

namespace RasterShader

/-- What a name stands for. -/
inductive Symbol where
  /-- A variable, with its value when it is `const`. -/
  | value (v : Variable) (init : Option Expr)
  | type (ty : Ty)
  /-- The visible overloads of a function, the latest first. -/
  | functions (overloads : List FunctionDecl)
  /-- A member of an interface block without an instance name. -/
  | member (owner : Variable) (index : Nat)
deriving Inhabited

/-- Names declared side by side, the latest first. -/
abbrev Scope := List (String × Symbol)

namespace Scope

/-- The scope with a name bound anew. -/
def put (scope : Scope) (name : String) (symbol : Symbol) : Scope :=
  (name, symbol) :: scope.filter (·.1 != name)

/-- The name is declared in the scope. -/
def defines (scope : Scope) (name : String) : Bool := (scope.lookup name).isSome

/-- Puts a declaration in the place of one overload, if it is among those of its name. -/
def replaceOverload? (scope : Scope) (old : Nat) (new : FunctionDecl) : Option Scope :=
  match scope.lookup new.name with
  | some (.functions overloads) =>
    if overloads.any (·.id == old) then
      let replaced := overloads.map fun f => if f.id == old then new else f
      some (scope.map fun (name, symbol) =>
        if name == new.name then (name, .functions replaced) else (name, symbol))
    else none
  | _ => none

end Scope

/-- The scopes of one program or module. The global scope is always there. -/
structure Layer where
  /-- Scopes of functions and blocks, innermost first. -/
  inner : List Scope
  global : Scope
  /-- The layer belongs to a built-in module. -/
  builtin : Bool
deriving Inhabited

namespace Layer

/-- A layer with an empty global scope. -/
def empty (builtin : Bool) : Layer := ⟨[], [], builtin⟩

/-- All scopes, innermost first. -/
def scopes (layer : Layer) : List Scope := layer.inner ++ [layer.global]

/-- The innermost scope. -/
def current (layer : Layer) : Scope := layer.inner.headD layer.global

/-- Changes the innermost scope. -/
def modifyCurrent (layer : Layer) (f : Scope → Scope) : Layer :=
  match layer.inner with
  | scope :: outer => { layer with inner := f scope :: outer }
  | [] => { layer with global := f layer.global }

/-- The nearest entry of a name. -/
def lookup? (layer : Layer) (name : String) : Option Symbol :=
  layer.scopes.findSome? (·.lookup name)

/-- Replaces an overload in the innermost scope that has it. -/
def replaceOverload (layer : Layer) (old : Nat) (new : FunctionDecl) : Layer :=
  let rec within : List Scope → Option (List Scope)
    | [] => none
    | scope :: outer =>
      match scope.replaceOverload? old new with
      | some scope => some (scope :: outer)
      | none => (within outer).map (scope :: ·)
  match within layer.inner with
  | some inner => { layer with inner }
  | none => { layer with global := (layer.global.replaceOverload? old new).getD layer.global }

end Layer

/-- A layer under construction and the finished layers below it, nearest first. -/
structure SymbolTable where
  layer : Layer
  below : List Layer
deriving Inhabited

namespace SymbolTable

/-- An empty layer on top of finished ones. -/
def enclosedBy (below : List Layer) (builtin : Bool) : SymbolTable := ⟨.empty builtin, below⟩

/-- Every layer, nearest first. -/
def layers (table : SymbolTable) : List Layer := table.layer :: table.below

/-- Number of scopes above the global one. -/
def depth (table : SymbolTable) : Nat := table.layer.inner.length

/-- Opens a scope. -/
def push (table : SymbolTable) : SymbolTable :=
  { table with layer := { table.layer with inner := [] :: table.layer.inner } }

/-- Closes the innermost scope. The global scope stays open. -/
def pop (table : SymbolTable) : SymbolTable :=
  { table with layer := { table.layer with inner := table.layer.inner.tail } }

/-- The name is declared in the innermost scope. -/
def definesHere (table : SymbolTable) (name : String) : Bool := table.layer.current.defines name

/-- The nearest entry of a name. -/
def lookup? (table : SymbolTable) (name : String) : Option Symbol :=
  table.layers.findSome? (·.lookup? name)

/-- The type a name stands for. -/
def lookupType? (table : SymbolTable) (name : String) : Option Ty :=
  match table.lookup? name with
  | some (.type ty) => some ty
  | _ => none

/-- The name stands for a type. -/
def isType (table : SymbolTable) (name : String) : Bool := (table.lookupType? name).isSome

/-- Binds a name in the innermost scope, whatever it stood for. -/
def put (table : SymbolTable) (name : String) (symbol : Symbol) : SymbolTable :=
  { table with layer := table.layer.modifyCurrent (·.put name symbol) }

/-- Declares a name in the innermost scope, unless it is taken there. -/
def insert? (table : SymbolTable) (name : String) (symbol : Symbol) : Option SymbolTable :=
  if table.definesHere name then none else some (table.put name symbol)

/-- Declares one more overload of a function, unless its name is taken in the innermost scope by
something else. -/
def insertFunction? (table : SymbolTable) (decl : FunctionDecl) : Option SymbolTable :=
  match table.lookup? decl.name with
  | some (.functions overloads) => some (table.put decl.name (.functions (decl :: overloads)))
  | some _ =>
    if table.definesHere decl.name then none
    else some (table.put decl.name (.functions [decl]))
  | none => some (table.put decl.name (.functions [decl]))

/-- Puts a definition's declaration in the place of its prototype. -/
def replaceFunction (table : SymbolTable) (old : Nat) (new : FunctionDecl) : SymbolTable :=
  { table with layer := table.layer.replaceOverload old new }

end SymbolTable

/-- What is told when a name is taken. -/
def Symbol.takenMessage (name : String) : String := s!"symbol '{name}' was already defined"

/-- The names of a layer's global scope. -/
def Layer.globalNames (layer : Layer) : List String := layer.global.map (·.1)

end RasterShader
