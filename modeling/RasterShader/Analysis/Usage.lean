import RasterShader.Program

/-!
# Uses of variables and functions

How often a variable is declared, read and written, and how often a function is called, counted
over the nodes of a program. The bodies of the built-in functions that a program reaches count
too, each once.
-/

namespace RasterShader

/-- Uses of one variable. An initializer counts as a write. -/
structure VariableUses where
  declarations : Nat
  reads : Nat
  writes : Nat
deriving DecidableEq, Repr, Inhabited

/-- What is counted: parameters declared and nodes. -/
structure Usage where
  parameters : List Variable
  nodes : List Node
deriving Inhabited

namespace Usage

/-- The parameters of the functions among elements. -/
def parametersOf (elements : List Element) : List Variable :=
  (definitions elements).flatMap fun f => f.decl.parameters

/-- Usage in elements only. -/
def ofElements (elements : List Element) : Usage :=
  ⟨parametersOf elements, elements.flatMap Element.nodes⟩

/-- The functions other than a given one. -/
def others (functions : List FunctionDef) (f : FunctionDef) : List FunctionDef :=
  functions.filter (·.decl.id != f.decl.id)

/-- The first pending call whose definition is among those that remain, as that definition. -/
def nextReached? (find? : FunctionDecl → Option FunctionDef) (remaining : List FunctionDef)
    (pending : List FunctionDecl) : Option FunctionDef :=
  pending.findSome? fun decl =>
    (find? decl).filter fun f => remaining.any (·.decl.id == f.decl.id)

/-- What is reached next was among those that remain. -/
theorem length_others_lt {find? : FunctionDecl → Option FunctionDef}
    {remaining : List FunctionDef} {pending : List FunctionDecl} {f : FunctionDef}
    (h : nextReached? find? remaining pending = some f) :
    (others remaining f).length < remaining.length := by
  obtain ⟨decl, -, hf⟩ := List.exists_of_findSome?_eq_some h
  have hany := (Option.filter_eq_some_iff.mp hf).2
  obtain ⟨g, hg, hid⟩ := List.any_eq_true.mp hany
  exact List.length_filter_lt_length_iff_exists.mpr ⟨g, hg, by simpa using hid⟩

/-- Functions reached from pending calls, each once, among those that remain to be reached. Every
round takes one of them away. -/
def reached (find? : FunctionDecl → Option FunctionDef) (remaining : List FunctionDef)
    (pending : List FunctionDecl) : List FunctionDef :=
  match _h : nextReached? find? remaining pending with
  | none => []
  | some f => f :: reached find? (others remaining f) (f.body.calledFunctions ++ pending)
termination_by remaining.length
decreasing_by exact length_others_lt _h

/-- Usage in a program and in the built-in functions it reaches. -/
def ofProgram (program : Program) : Usage :=
  let functions := program.functions
  let builtins := (program.modules.flatMap fun m => definitions m.elements).filter fun f =>
    !functions.any (·.decl.id == f.decl.id)
  let calls := functions.flatMap fun f => f.body.calledFunctions
  let library := reached program.findDefinition? builtins calls
  let own := ofElements program.elements
  ⟨own.parameters ++ library.flatMap fun f => f.decl.parameters,
    own.nodes ++ library.flatMap fun f => f.body.nodes⟩

/-- The node declares the variable. -/
def declares (v : Variable) : Node → Bool
  | .statement (.declare _ w _) => w.id == v.id
  | _ => false

/-- The node declares the variable with an initializer. -/
def initializes (v : Variable) : Node → Bool
  | .statement (.declare _ w value) => w.id == v.id && value.isSome
  | _ => false

/-- The node is a reference to the variable, of a kind that satisfies `p`. -/
def refers (v : Variable) (p : RefKind → Bool) : Node → Bool
  | .expression (.reference _ w _ ref) => w.id == v.id && p ref
  | _ => false

/-- Uses of a variable. -/
def uses (usage : Usage) (v : Variable) : VariableUses where
  declarations := usage.parameters.countP (·.id == v.id) + usage.nodes.countP (declares v)
  reads := usage.nodes.countP (refers v (· != .write))
  writes := usage.nodes.countP (initializes v) + usage.nodes.countP (refers v (· != .read))

/-- Calls of a function. -/
def callCount (usage : Usage) (f : FunctionDecl) : Nat :=
  usage.nodes.countP fun
    | .expression (.call _ g _) => g.id == f.id
    | _ => false

end Usage

end RasterShader
