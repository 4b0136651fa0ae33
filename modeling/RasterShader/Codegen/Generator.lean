import RasterShader.Analysis.Usage
import RasterShader.Codegen.Place
import RasterShader.Codegen.Slots
import RasterShader.Instruction.Builder

/-!
# State of code generation

Every value lives in a range of slots or on one of several stacks. Stack 0 carries the evaluation of
expressions; others hold what has to outlive an expression, such as the offsets of elements chosen
at run time, the saved masks of a switch, and the test of a masked choice.

`GenM` is the monad of code generation. Its basic operations are those of the builder
(`build`), of the stacks, and of the places (`pushPlace`, `storePlace`, `releasePlace`).
-/

namespace RasterShader

/-- The function whose body is being written. -/
structure Frame where
  result : Option SlotRange
  usesReturnMask : Bool
deriving Inhabited

/-- State of code generation. -/
structure Gen where
  builder : Builder
  values : SlotTable
  uniforms : SlotTable
  /-- Words of the immutable slots. -/
  immutable : List UInt32
  /-- Variables that live in immutable slots. -/
  immutableVars : List (Nat × SlotRange)
  /-- Places of child effects among the children. -/
  children : List (Nat × Nat)
  /-- The highest stack that was ever used. -/
  lastStack : Int
  freeStacks : List Int
  breakTarget : Option Int
  continueStack : Option Int
  frame : Option Frame
  /-- Functions in the trace: identity and signature. -/
  functions : List (Nat × String)
  /-- Slots of the color that a program without a result gives. -/
  fragColor : Option SlotRange
deriving Inhabited

/-- Before the first instruction. -/
def Gen.start (trace : Bool) : Gen where
  builder := .empty
  values := .empty trace
  uniforms := .empty trace
  immutable := []
  immutableVars := []
  children := []
  lastStack := 0
  freeStacks := []
  breakTarget := none
  continueStack := none
  frame := none
  functions := []
  fragColor := none

/-- Computations that generate code. -/
abbrev GenM := StateT Gen (Except Unsupported)

/-- What code is generated for. -/
structure CodeContext where
  program : Program
  usage : Usage
  /-- Writes the body of a function, whose result goes to the given slots. -/
  writeBody : FunctionDef → Option SlotRange → GenM Unit

namespace CodeContext

/-- Slots and events are traced. -/
def trace (ctx : CodeContext) : Bool := ctx.program.dialect.settings.debugTrace

/-- Constants are computed beforehand and kept in immutable slots. -/
def optimize (ctx : CodeContext) : Bool := ctx.program.dialect.settings.optimize

/-- The line of a span, as far as a trace needs it. -/
def line (ctx : CodeContext) (span : Span) : Nat :=
  if ctx.trace then span.line ctx.program.source else 0

end CodeContext

namespace Gen

/-- Calls the builder. -/
def build (f : Builder → Builder) : GenM Unit :=
  modify fun g => { g with builder := f g.builder }

/-- A new label. -/
def newLabel : GenM Int :=
  modifyGet fun g =>
    let (label, builder) := g.builder.nextLabel
    (label, { g with builder })

/-- A stack that is not in use. -/
def createStack : GenM Int :=
  modifyGet fun g =>
    match g.freeStacks with
    | stack :: rest => (stack, { g with freeStacks := rest })
    | [] => (g.lastStack + 1, { g with lastStack := g.lastStack + 1 })

/-- Gives a stack free. -/
def recycleStack (stack : Int) : GenM Unit :=
  modify fun g => { g with freeStacks := stack :: g.freeStacks }

/-- Works on another stack for a while. -/
def onStack (stack : Int) (act : GenM Unit) : GenM Unit := do
  let saved := (← get).builder.stack
  build (·.setStack stack)
  act
  build (·.setStack saved)

/-- New slots for a value. -/
def allocate (name : String) (ty : Ty) (line : Nat) (resultOf : Option Nat) : GenM SlotRange :=
  modifyGet fun g =>
    let (range, values) := g.values.allocate name ty line resultOf
    (range, { g with values })

/-- Slots for a value without a name. -/
def scratch (ty : Ty) : GenM SlotRange := allocate "" ty 0 none

/-- The slots of a variable. -/
def valueSlots (ctx : CodeContext) (v : Variable) : GenM SlotRange :=
  modifyGet fun g =>
    let (range, values) := g.values.getOrAllocate v (ctx.line v.span)
    (range, { g with values })

/-- The uniform slots of a variable. -/
def uniformSlots (ctx : CodeContext) (v : Variable) : GenM SlotRange :=
  modifyGet fun g =>
    let (range, uniforms) := g.uniforms.getOrAllocate v (ctx.line v.span)
    (range, { g with uniforms })

/-- Immutable slots that hold the given words: those of an equal run, or new ones. -/
def immutableSlots (words : List UInt32) : GenM SlotRange := do
  if words.isEmpty then return ⟨0, 0⟩
  let g ← get
  match findWords words g.immutable with
  | some index => return ⟨index, words.length⟩
  | none =>
    let start := g.immutable.length
    for (word, i) in words.zipIdx do
      build (·.emit (.storeImmutable (start + i) word))
    modify fun g => { g with immutable := g.immutable ++ words }
    return ⟨start, words.length⟩

/-- The place of a function in the trace, when tracing. -/
def functionIndex (ctx : CodeContext) (f : FunctionDecl) : GenM (Option Nat) := do
  if !ctx.trace then return none
  let functions := (← get).functions
  match functions.findIdx? (·.1 == f.id) with
  | some index => return some index
  | none =>
    modify fun g => { g with functions := functions ++ [(f.id, f.signature)] }
    return some functions.length

/-! ## Built-in variables -/

/-- The number of the built-in variable for the device coordinates. -/
def fragCoordBuiltin : Int := 15

/-- The number of the built-in variable for the resulting color. -/
def fragColorBuiltin : Int := 10001

/-- The variable stands for the device coordinates. -/
def isFragCoord (v : Variable) : Bool := v.modifiers.layout.builtin? == some fragCoordBuiltin

/-- The variable stands for the resulting color. -/
def isFragColor (v : Variable) : Bool := v.modifiers.layout.builtin? == some fragColorBuiltin

/-! ## Places -/

/-- The place of a variable. -/
def variablePlace (ctx : CodeContext) (v : Variable) : GenM Place := do
  if v.ty.isEffect then throw (.childAsValue v.name)
  if isFragCoord v then
    let range ← scratch v.ty
    build fun b => (b.pushInput .device).popSlotsUnmasked range
    return .root .value range
  match (← get).immutableVars.lookup v.id with
  | some range => return .root .immutable range
  | none =>
    if v.isUniform then return .root .uniform (← uniformSlots ctx v)
    let range ← valueSlots ctx v
    if isFragColor v then modify fun g => { g with fragColor := some range }
    return .root .value range

/-- The element of a place, of `stride` slots, whose index a computation pushes. -/
def elementPlace (parent : Place) (pushIndex : GenM Unit) (stride : Nat) : GenM Place := do
  let parentStack ← parent.offsetStack?
  let stack ← createStack
  onStack stack do
    pushIndex
    if stride != 1 then
      build fun b => (b.pushConstant (Word.ofInt stride) 1).binary .mul .int 1
    match parentStack with
    | some parentStack =>
      build fun b => (b.pushCloneFromStack 1 parentStack 1).binary .add .int 1
    | none => pure ()
  return .element parent stride stack

/-- Pushes what is at a location. -/
def pushLocation (location : Location) : GenM Unit :=
  match location.offsetStack with
  | none => build (·.pushSlots location.space location.fixed)
  | some stack => build (·.pushIndirect location.space location.fixed stack location.limit)

/-- Pushes the value of a place. -/
def pushPlace : Place → GenM Unit
  | .scattered parent components => do
    pushPlace parent
    build (·.swizzle parent.slotCount components)
  | place => do pushLocation (← place.location)

/-- The location of a place that can be stored to. -/
def writableLocation (place : Place) : GenM Location := do
  let location ← place.location
  if location.space != .value then throw .readOnly
  return location

/-- Copies the value on top of the stack to a place and leaves it on the stack. -/
def storePlace (ctx : CodeContext) : Place → GenM Unit
  | .scattered parent components => do
    let l ← writableLocation parent
    match l.offsetStack with
    | none => build (·.swizzleToSlots l.fixed components components.length)
    | some stack =>
      build (·.swizzleToIndirect l.fixed stack l.limit components components.length)
  | place => do
    let l ← writableLocation place
    match l.offsetStack with
    | none =>
      build (·.copyToSlots l.fixed l.fixed.count)
      if ctx.trace then build (·.traceVar l.fixed)
    | some stack => build (·.copyToIndirect l.fixed stack l.limit l.fixed.count)

/-- Gives the stacks free that hold offsets of a place. -/
def releasePlace (place : Place) : GenM Unit := do
  for stack in place.offsetStacks do
    onStack stack (build (·.discard 1))
    recycleStack stack

end Gen

end RasterShader
