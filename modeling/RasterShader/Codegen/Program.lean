import RasterShader.Codegen.Statement
import RasterShader.Pipeline.Basic

/-!
# Code for programs

A program stores its inputs in the parameters of `main`, gives the global variables their values,
runs the body of `main`, and loads the result into the source color.

Functions are written out where they are called. No function calls itself, so calls nest no deeper
than there are functions.
-/

namespace RasterShader

open Gen

/-- Writes the body of a function. A function that may return before its end keeps a mask of the
lanes that have not. -/
def writeFunction (ctx : CodeContext) (f : FunctionDef) (result : Option SlotRange) :
    GenM Unit := do
  let usesReturnMask := f.body.hasEarlyReturn
  let saved ← get
  modify fun g =>
    { g with frame := some ⟨result, usesReturnMask⟩, breakTarget := none, continueStack := none }
  if usesReturnMask then build fun b => b.enableMaskWrites.pushMask .returns
  let index ← functionIndex ctx f.decl
  index.forM fun index => build (·.emit (.trace (.enter index)))
  f.body.write ctx
  index.forM fun index => build (·.emit (.trace (.exit index)))
  if usesReturnMask then build fun b => (b.popMask .returns).disableMaskWrites
  modify fun g =>
    { g with
      frame := saved.frame
      breakTarget := saved.breakTarget
      continueStack := saved.continueStack }

/-- The context in which calls may nest to a given depth. -/
def CodeContext.ofDepth (program : Program) (usage : Usage) : Nat → CodeContext
  | 0 => ⟨program, usage, fun f _ => throw (.undefinedFunction f.decl.signature)⟩
  | depth + 1 => ⟨program, usage, writeFunction (ofDepth program usage depth)⟩

namespace CodeContext

variable (program : Program) (usage : Usage) (depth : Nat)

@[simp] theorem ofDepth_program : (ofDepth program usage depth).program = program := by
  cases depth <;> rfl

@[simp] theorem ofDepth_usage : (ofDepth program usage depth).usage = usage := by
  cases depth <;> rfl

end CodeContext

/-- The context of a program. -/
def CodeContext.ofProgram (program : Program) : CodeContext :=
  let library := program.modules.flatMap fun m => definitions m.elements
  ofDepth program (.ofProgram program) (program.functions.length + library.length)

/-- Numbers the child effects and gives uniforms their slots. -/
def writeInputs (ctx : CodeContext) (globals : List Variable) : GenM Unit := do
  let children := globals.filter (·.ty.isEffect)
  modify fun g => { g with children := children.zipIdx.map fun (v, index) => (v.id, index) }
  for v in globals do
    if !v.ty.isEffect && v.isUniform then let _ ← uniformSlots ctx v

/-- Stores the coordinates or colors that a program is given in the parameters of `main`; so many
colors have been stored before. -/
def writeParameters (ctx : CodeContext) : (colors : Nat) → List Variable → GenM Unit
  | _, [] => pure ()
  | colors, v :: rest => do
    let slots ← valueSlots ctx v
    if slots.count = 2 then
      build (·.emit (.storeCoords slots))
      writeParameters ctx colors rest
    else if slots.count = 4 ∧ colors = 0 then
      build (·.emit (.storeInput (.color .src) slots))
      writeParameters ctx 1 rest
    else if slots.count = 4 ∧ colors = 1 ∧ ctx.program.dialect.kind = .runtimeBlender then
      build (·.emit (.storeInput (.color .dst) slots))
      writeParameters ctx 2 rest
    else throw (.mainParameter v.ty.name v.name)

/-- A global variable that the program has use for. -/
def isUsed (ctx : CodeContext) (v : Variable) (value : Option Expr) : Bool :=
  let uses := ctx.usage.uses v
  0 < uses.reads || (if value.isSome then 1 else 0) < uses.writes

/-- Gives the global variables their values. -/
def writeGlobals (ctx : CodeContext) (globals : List (Variable × Option Expr)) : GenM Unit := do
  for (v, value) in globals do
    if !(v.isUniform || v.ty.isEffect || v.builtin) && isUsed ctx v value then
      writeDeclaration ctx v value

/-- Writes the code of a program. -/
def writeProgram (ctx : CodeContext) : GenM Unit := do
  match ctx.program.main? with
  | none => throw .noMain
  | some main =>
    let decl := main.decl
    let globals := ctx.program.globals
    build (·.emit .initLaneMasks)
    writeInputs ctx (globals.map (·.1))
    writeParameters ctx 0 decl.parameters
    writeGlobals ctx globals
    let result ←
      if decl.returnType.isVoid then pure none
      else do
        let index ← functionIndex ctx decl
        pure (some (← allocate s!"[{decl.name}].result" decl.returnType (ctx.line decl.span) index))
    writeFunction ctx main result
    match result.or (← get).fragColor with
    | some color => build (·.emit (.loadColor .src color))
    | none => build fun b => (b.pushZeros 4).popColor .src

/-- What a trace tells of generated code. -/
def Gen.debugTrace (g : Gen) : DebugTrace :=
  ⟨g.values.info.getD [], g.uniforms.info.getD [], g.functions.map (·.2), []⟩

end RasterShader
