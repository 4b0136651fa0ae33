import RasterShader.Analysis.Calls
import RasterShader.Analysis.Effects
import RasterShader.Analysis.Jumps
import RasterShader.Session
import RasterShader.Typing.Coerce

/-!
# Declarations

Declaring types, variables, functions and interface blocks in a session. A variable becomes
visible only after its initializer, so that `float x = x;` reads an outer `x`.
-/

namespace RasterShader

namespace Typing

/-! ## Array types -/

/-- Checks the size of an array. -/
def arraySize (size : Expr) : Checked Nat :=
  if size.isPoison then pure 1
  else if !size.ty.isInteger || !size.ty.isScalar then .refuse size.span .sizeNotInteger 1
  else
    match size.constantInt? with
    | none => .refuse size.span .sizeNotConstant 1
    | some n =>
      if n ≤ 0 then .refuse size.span .sizeNotPositive 1
      else if 2147483647 < n then .refuse size.span .sizeTooLarge 1
      else pure n.toNat

/-- Checks `base[size]` or `base[]`. A wrong size is reported and replaced by one. -/
def arrayType (kind : ProgramKind) (span : Span) (base : Ty) (size : Option Expr) : Checked Ty := do
  if base.isArray then .refuse span .nestedArray base
  else if base.isVoid || base.hasEffect then .refuse span (.noArrayOf base) (.array base (some 1))
  else
    match size with
    | some size => return .array base (some (← arraySize size))
    | none =>
      if kind.allowsUnsizedArrays then return .array base none
      else .refuse span .unsizedArray (.array base (some 1))

/-! ## Variables -/

/-- Keywords permitted on a variable. -/
def permittedModifiers (kind : ProgramKind) (storage : Storage) : ModifierFlags :=
  match storage with
  | .local => .const
  | .parameter => .const ||| .input ||| .output
  | .global | .interfaceBlock =>
    let stage : ModifierFlags :=
      .const ||| .uniform ||| .input ||| .output ||| .buffer ||| .readonly ||| .writeonly
    if kind.isRuntimeEffect then .const ||| .uniform
    else if kind.isCompute then stage ||| .workgroup
    else stage ||| .flat ||| .noperspective

/-- Checks the type of a variable. -/
def variableType (dialect : Dialect) (span : Span) (modifiers : Modifiers) (ty : Ty)
    (storage : Storage) : Checked Bool := do
  if ty.isVoid then .refuse span .voidVariable false
  else if ty.hasEffect && storage != .global then .refuse span (.mustBeGlobal ty) false
  else if ty.hasEffect && !modifiers.isUniform then .refuse span (.mustBeUniform ty) false
  else
    if modifiers.isUniform && dialect.kind.isRuntimeEffect && ty.hasBoolean then
      Checked.report span (.mayNotBeUniform ty)
    if ty.isUnsizedArray && storage == .local then .refuse span .unsizedArray false
    else return true

/-- Checks the initializer of a variable; nothing is left when it is wrong. -/
def initializer (span : Span) (modifiers : Modifiers) (ty : Ty) (value : Option Expr)
    (storage : Storage) : Checked (Option (Option Expr)) := do
  match value with
  | none =>
    if modifiers.isConst then .refuse span .constWithoutValue none else return some none
  | some value =>
    if modifiers.isUniform then .refuse value.span .uniformInitializer none
    else if modifiers.flags.intersects (.input ||| .output) && storage == .global then
      .refuse value.span .stageInitializer none
    else
      let value ← value.coerce ty
      if value.isPoison then return none
      else if modifiers.isConst && !value.isConstantExpression then
        .refuse value.span .constNotConstant none
      else return some (some value)

/-- Declares a variable with its initializer. What is wrong leaves an empty statement. -/
def declareVariable (span : Span) (modifiers : Modifiers) (ty : Ty) (name : String)
    (value : Option Expr) (storage : Storage) : SessionM Stmt := do
  let s ← get
  SessionM.checkModifiers modifiers (permittedModifiers s.dialect.kind storage)
  if !(← SessionM.check (variableType s.dialect span modifiers ty storage)) then return .nop span
  match ← SessionM.check (initializer span modifiers ty value storage) with
  | none => return .nop span
  | some value =>
    let v : Variable := ⟨← SessionM.freshId, name, ty, modifiers, storage, span, s.isBuiltin⟩
    let constant := if v.isConst then value else none
    if ← SessionM.declare span name (.value v constant) then return .declare span v value
    else return .nop span

/-- Declares a global variable. -/
def declareGlobal (span : Span) (modifiers : Modifiers) (ty : Ty) (name : String)
    (value : Option Expr) : SessionM Unit := do
  match ← declareVariable span modifiers ty name value .global with
  | .declare span v value => SessionM.addElement (.global span v value)
  | _ => return ()

/-! ## Functions -/

/-- Checks a parameter. -/
def parameter (span : Span) (modifiers : Modifiers) (ty : Ty) (name : String) :
    SessionM (Option Variable) := do
  SessionM.checkModifiers modifiers (permittedModifiers (← get).dialect.kind .parameter)
  if ty.isVoid then SessionM.refuse span .voidParameter
  else if ty.isUnsizedArray then SessionM.refuse span .unsizedArray
  else if ty.hasEffect && modifiers.isOut then SessionM.refuse span (.outParameter ty)
  else
    let id ← SessionM.freshId
    return some ⟨id, name, ty, modifiers, .parameter, span, (← get).isBuiltin⟩

/-- What the entry point of a kind of program has to look like: tests of its return type and
parameter types, and how messages name them. -/
structure MainShape where
  returns : Ty → Bool
  parameters : Ty → List Ty → Bool
  returnsText : String
  parametersText : String

/-- The type of a color. -/
def isColor (ty : Ty) : Bool := ty.name == "half4" || ty.name == "float4"

/-- The type of coordinates. -/
def isCoords (ty : Ty) : Bool := ty.name == "float2"

/-- The entry point of each kind of program. -/
def MainShape.of : ProgramKind → MainShape
  | .runtimeShader =>
    ⟨isColor, fun _ ps => ps.length ≤ 1 && ps.all isCoords, "'half4' or 'float4'",
      "(float2 coords)"⟩
  | .runtimeColorFilter =>
    ⟨isColor, fun _ ps => ps.length == 1 && ps.all isColor, "'half4' or 'float4'",
      "(half4 color)"⟩
  | .runtimeBlender =>
    ⟨isColor, fun _ ps => ps.length == 2 && ps.all isColor, "'half4' or 'float4'",
      "(half4 src, half4 dst)"⟩
  | .fragment | .graphiteFragment | .graphiteFragmentEs2 =>
    ⟨fun ty => ty.isVoid || isColor ty,
      fun ty ps => if ty.isVoid then ps.isEmpty else ps.length ≤ 1 && ps.all isCoords,
      "'void', 'half4' or 'float4'", "() or (float2 coords)"⟩
  | .vertex | .graphiteVertex | .graphiteVertexEs2 | .compute =>
    ⟨Ty.isVoid, fun _ ps => ps.isEmpty, "'void'", "()"⟩
  | .generic => ⟨fun _ => true, fun _ _ => true, "", ""⟩

/-- Checks the signature of the entry point. -/
def mainSignature (kind : ProgramKind) (span : Span) (returns : Ty) (parameters : List Variable) :
    Checked Bool :=
  let shape := MainShape.of kind
  if !shape.returns returns then .refuse span (.mainReturns shape.returnsText) false
  else if !shape.parameters returns (parameters.map Variable.ty) then
    .refuse span (.mainParameters shape.parametersText) false
  else if parameters.any (·.modifiers.flags.intersects .output) then .refuse span .mainOut false
  else pure true

/-- Checks a signature on its own. -/
def signature (s : Session) (span : Span) (modifiers : Modifiers) (returns : Ty) (name : String)
    (parameters : List Variable) : Checked Bool :=
  if modifiers.flags.contains (.inline ||| .noinline) then .refuse span .inlineBoth false
  else if returns.hasEffect || returns.isUnsizedArray ||
      (s.dialect.strictEs2 && returns.hasArray) then
    .refuse span (.returnType returns) false
  else if name == "main" && !s.isBuiltin then
    mainSignature s.dialect.kind span returns parameters
  else pure true

/-- The place, counted from 1, of the first parameter whose keywords differ. -/
def differingParameter? (f g : FunctionDecl) : Option Nat :=
  let differ := fun (a, b) => a.modifiers.flags != b.modifiers.flags
  ((f.parameters.zip g.parameters).findIdx? differ).map (· + 1)

/-- What becomes of a declaration in view of an earlier one with the same signature. -/
inductive Redeclaration where
  /-- The two do not go together. -/
  | conflict (issue : Issue)
  /-- A prototype of what is declared already. -/
  | repeated (earlier : FunctionDecl)
  /-- The definition of an earlier prototype. -/
  | defines (earlier : FunctionDecl)
  /-- A program's own version of a built-in function. -/
  | shadows

/-- Compares a declaration with an earlier one of the same signature. -/
def redeclaration (s : Session) (decl : FunctionDecl) (isDefinition : Bool)
    (earlier : FunctionDecl) : Redeclaration :=
  if !earlier.returnType.same decl.returnType then
    .conflict (.onlyReturnTypeDiffers decl.signature earlier.signature)
  else
    match differingParameter? decl earlier with
    | some place => .conflict (.parameterModifiers place)
    | none =>
      if !isDefinition then .repeated earlier
      else if earlier.builtin then .shadows
      else if s.hasDefinition earlier then .conflict (.duplicateDefinition decl.signature)
      else .defines earlier

/-- Adds a declaration to the overloads of its name. -/
def addOverload (span : Span) (decl : FunctionDecl) : SessionM (Option FunctionDecl) := do
  match (← get).symbols.insertFunction? decl with
  | some symbols =>
    modify fun s => { s with symbols }
    return some decl
  | none => SessionM.refuse span (.alreadyDefined decl.name)

/-- Settles a declaration against earlier ones with the same signature, one after the other. -/
def settle (span : Span) (decl : FunctionDecl) (isDefinition : Bool) :
    List FunctionDecl → SessionM (Option FunctionDecl)
  | [] => addOverload span decl
  | earlier :: rest => do
    match redeclaration (← get) decl isDefinition earlier with
    | .conflict issue => SessionM.refuse span issue
    | .repeated earlier => return some earlier
    | .defines earlier =>
      SessionM.modifySymbols (·.replaceFunction earlier.id decl)
      return some decl
    | .shadows => settle span decl isDefinition rest

/-- Declares a function. `isDefinition` tells that a body follows. -/
def declareFunction (span : Span) (modifiers : Modifiers) (returns : Ty) (name : String)
    (parameters : List Variable) (isDefinition : Bool) : SessionM (Option FunctionDecl) := do
  let s ← get
  let permitted : ModifierFlags :=
    if s.isBuiltin then .inline ||| .noinline ||| .pure else .inline ||| .noinline
  SessionM.checkModifiers modifiers permitted
  if !(← SessionM.check (signature s span modifiers returns name parameters)) then return none
  let intrinsic := if s.isBuiltin then Intrinsic.ofName? name else none
  let decl : FunctionDecl :=
    ⟨← SessionM.freshId, name, parameters, returns, modifiers, intrinsic, s.isBuiltin, span⟩
  let earlier :=
    match s.symbols.lookup? name with
    | some (.functions overloads) => overloads.filter (·.matchesSignature decl)
    | _ => []
  settle span decl isDefinition earlier

/-- Opens the body of a function with its parameters in scope. -/
def openFunction (decl : FunctionDecl) : SessionM Unit := do
  modify fun s => { s with function := some decl, symbols := s.symbols.push }
  decl.parameters.forM fun p => do
    if !p.name.isEmpty then
      let _ ← SessionM.declare p.span p.name (.value p none)

/-- Leaves the body of a function. -/
def closeFunction : SessionM Unit :=
  modify fun s => { s with function := none, symbols := s.symbols.pop }

/-- Leaves the body of a function and records the definition. -/
def finishFunction (decl : FunctionDecl) (body : Stmt) : SessionM Unit := do
  closeFunction
  if !decl.returnType.isVoid && body.canExitWithoutReturning then
    SessionM.report decl.span (.missingReturn decl.name)
  SessionM.addElement (.function ⟨decl, body⟩)

/-! ## Structs and interface blocks -/

/-- The deepest nesting of structs. -/
def maxStructNesting : Nat := 8

/-- Checks one field; `earlier` are the names of those before it. -/
def field (owner : FieldOwner) (ownerName : String) (earlier : List String) (f : Field) :
    Checked Bool :=
  if owner == .struct && !f.modifiers.flags.isEmpty then
    ⟨false, f.modifiers.flags.names.map fun name => ⟨f.span, .fieldModifier name⟩⟩
  else if f.ty.isVoid then .refuse f.span .voidField false
  else if f.ty.hasEffect then .refuse f.span (.opaqueField f.ty owner) false
  else if owner == .struct && f.ty.isUnsizedArray then .refuse f.span .unsizedArray false
  else if earlier.contains f.name then
    .refuse f.span (.duplicateField f.name owner ownerName) false
  else pure true

/-- Checks fields up to the first that is wrong. -/
def fields (owner : FieldOwner) (ownerName : String) (earlier : List String) :
    List Field → Checked Bool
  | [] => pure true
  | f :: rest => do
    if ← field owner ownerName earlier f then fields owner ownerName (f.name :: earlier) rest
    else return false

/-- Declares a struct. -/
def declareStruct (span : Span) (name : String) (members : List Field) :
    SessionM (Option Ty) := do
  let ty := Ty.struct name members false
  if members.isEmpty then SessionM.refuse span (.emptyStruct name)
  else if !(← SessionM.check (fields .struct name [] members)) then return none
  else if maxStructNesting < ty.nesting then SessionM.refuse span (.structTooDeep name)
  else if ← SessionM.declare span name (.type ty) then
    SessionM.addElement (.struct span ty)
    return some ty
  else return none

/-- Declares the members of a block without an instance name, up to the first whose name is
taken. -/
def declareMembers (owner : Variable) : List (Field × Nat) → SessionM Bool
  | [] => return true
  | (f, i) :: rest => do
    if ← SessionM.declare f.span f.name (.member owner i) then declareMembers owner rest
    else return false

/-- Declares an interface block. Without an instance name its members are visible on their
own. -/
def declareBlock (span : Span) (modifiers : Modifiers) (typeName : String) (members : List Field)
    (instanceName : String) (size : Option Nat) : SessionM Unit := do
  let s ← get
  let block := Ty.struct typeName members true
  if s.dialect.kind.isRuntimeEffect then SessionM.report span .blockNotAllowed
  else if members.isEmpty then SessionM.report span (.emptyBlock typeName)
  else if ← SessionM.check (fields .interfaceBlock typeName [] members) then
    SessionM.checkModifiers modifiers
      (.uniform ||| .input ||| .output ||| .buffer ||| .readonly ||| .writeonly)
    let ty := if size.isSome then .array block size else block
    let name := if instanceName.isEmpty then typeName else instanceName
    let v : Variable :=
      ⟨← SessionM.freshId, name, ty, modifiers, .interfaceBlock, span, s.isBuiltin⟩
    let declared ←
      if instanceName.isEmpty then declareMembers v members.zipIdx
      else SessionM.declare span instanceName (.value v none)
    if declared then SessionM.addElement (.interfaceBlock span v typeName instanceName)

/-! ## Whole programs -/

/-- Checks that need every function of a program: call cycles, and calls of functions that are
never defined. -/
def finishProgram : SessionM Unit := do
  let s ← get
  if !s.isBuiltin then
    let functions := definitions s.elements
    if let some decl := CallGraph.cycle? functions then
      SessionM.report decl.span .recursion
    let elsewhere (decl : FunctionDecl) := (Module.findDefinition? s.modules decl).isSome
    (CallGraph.undefinedCalls functions elsewhere).forM fun (span, decl) =>
      SessionM.report span (.undefinedFunction decl.signature)

end Typing

end RasterShader
