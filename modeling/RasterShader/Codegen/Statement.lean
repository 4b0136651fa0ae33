import RasterShader.Analysis.Jumps
import RasterShader.Codegen.Expression

/-!
# Code for statements

Where the lanes may disagree, both sides of a branch run under a mask, and a loop runs until no lane
is left in it. Where they cannot disagree, a branch or a counted loop needs no masks.

A lane that breaks out of a loop or switch leaves the loop mask; one that continues is kept on a
stack of its own until the next iteration; one that returns leaves the return mask.
-/

namespace RasterShader

open Gen

/-! ## Declarations -/

/-- Keeps a variable that is only initialized, with a constant, in immutable slots. -/
def promoteToImmutable (ctx : CodeContext) (v : Variable) (value : Expr) : GenM Bool := do
  if !ctx.optimize || ctx.trace || (ctx.usage.uses v).writes != 1 then return false
  match value.constantValue? with
  | none => return false
  | some values =>
    let words := constantBits v.ty values
    if words.length != v.ty.slotCount then return false
    let range ← immutableSlots words
    modify fun g => { g with immutableVars := (v.id, range) :: g.immutableVars }
    return true

/-- Gives a variable its slots and its first value, zero without an initializer. -/
def writeSlots (ctx : CodeContext) (v : Variable) (value : Option Expr) : GenM Unit := do
  let slots ← valueSlots ctx v
  match value with
  | some e =>
    (e.operand ctx).push
    build (·.popSlotsUnmasked slots)
  | none => build (·.zeroSlots slots)
  if ctx.trace then build (·.traceVar slots)

/-- Declares a variable. -/
def writeDeclaration (ctx : CodeContext) (v : Variable) (value : Option Expr) : GenM Unit := do
  match value with
  | some e =>
    if ← promoteToImmutable ctx v e then pure () else writeSlots ctx v value
  | none => writeSlots ctx v none

/-! ## Branches -/

/-- Runs both sides of a branch, each in the lanes that take it. -/
def writeMaskedBranch (test : GenM Unit) (ifTrue : GenM Unit) (ifFalse : Option (GenM Unit)) :
    GenM Unit := do
  build fun b => b.enableMaskWrites.pushMask .condition
  test
  build (·.emit (.mergeCondition false))
  let falseLabel ← newLabel
  build (·.branch .noLanesActive falseLabel)
  ifTrue
  match ifFalse with
  | some ifFalse =>
    let exitLabel ← newLabel
    build fun b =>
      ((b.label falseLabel).emit (.mergeCondition true)).branch .noLanesActive exitLabel
    ifFalse
    build (·.label exitLabel)
  | none => build (·.label falseLabel)
  build fun b => ((b.discard 1).popMask .condition).disableMaskWrites

/-- Runs the side of a branch that all lanes take. -/
def writeUniformBranch (test : GenM Unit) (ifTrue : GenM Unit) (ifFalse : Option (GenM Unit)) :
    GenM Unit := do
  test
  let falseLabel ← newLabel
  build (·.branch (.noLanesEqual Word.allOnes) falseLabel)
  ifTrue
  match ifFalse with
  | some ifFalse =>
    let exitLabel ← newLabel
    build fun b => (b.jump exitLabel).label falseLabel
    ifFalse
    build (·.label exitLabel)
  | none => build (·.label falseLabel)
  build (·.discard 1)

/-! ## Loops -/

/-- A stack for the lanes that continue, if there can be any. -/
def createContinueStack (jumps : Jumps) : GenM (Option Int) := do
  if !jumps.hasContinue then return none
  let stack ← createStack
  onStack stack (build (·.pushZeros 1))
  return some stack

/-- Lets the lanes that continued back into the loop. -/
def reenableContinued : Option Int → GenM Unit
  | none => pure ()
  | some stack => onStack stack (build fun b => (b.emit .popAndReenableLoop).pushZeros 1)

/-- Gives the stack for the lanes that continue free. -/
def releaseContinueStack : Option Int → GenM Unit
  | none => pure ()
  | some stack => do
    onStack stack (build (·.discard 1))
    recycleStack stack

/-- Runs something with the jumps out of a loop leading to given places. -/
def insideLoop (exit : Int) (continueStack : Option Int) (body : GenM Unit) : GenM Unit := do
  modify fun g => { g with breakTarget := some exit, continueStack }
  body

/-- Writes a loop, and restores where jumps lead to afterwards. -/
def writeLoop (jumps : Jumps) (loop : Option Int → GenM Unit) : GenM Unit := do
  build Builder.enableMaskWrites
  let saved ← get
  let continueStack ← createContinueStack jumps
  loop continueStack
  releaseContinueStack continueStack
  modify fun g =>
    { g with breakTarget := saved.breakTarget, continueStack := saved.continueStack }
  build Builder.disableMaskWrites

/-- The end of a loop: goes back to the body while some lane is left. -/
def repeatWhileActive (test : Option (GenM Unit)) (body exit : Int) : GenM Unit := do
  match test with
  | some test =>
    test
    build (·.emit .mergeLoop)
  | none => pure ()
  build fun b => ((b.branch .anyLanesActive body).label exit).popMask .loop

/-- A loop that tests before its body. -/
def writeFor (jumps : Jumps) (initializer : GenM Unit) (test : Option (GenM Unit))
    (next body : GenM Unit) : GenM Unit :=
  writeLoop jumps fun continueStack => do
    initializer
    build (·.pushMask .loop)
    let bodyLabel ← newLabel
    let testLabel ← newLabel
    let exitLabel ← newLabel
    build fun b => (b.jump testLabel).label bodyLabel
    insideLoop exitLabel continueStack body
    reenableContinued continueStack
    next
    build (·.label testLabel)
    repeatWhileActive test bodyLabel exitLabel

/-- A loop that tests after its body. -/
def writeDo (jumps : Jumps) (body test : GenM Unit) : GenM Unit :=
  writeLoop jumps fun continueStack => do
    build (·.pushMask .loop)
    let bodyLabel ← newLabel
    let exitLabel ← newLabel
    build (·.label bodyLabel)
    insideLoop exitLabel continueStack body
    reenableContinued continueStack
    repeatWhileActive (some test) bodyLabel exitLabel

/-- A loop with a known number of trips that no lane leaves early, so that all lanes run the same
iterations. -/
def writeCounted (count : Nat) (initializer : GenM Unit) (test : Option (GenM Unit))
    (next body : GenM Unit) : GenM Unit := do
  initializer
  if count = 0 then return
  let bodyLabel ← newLabel
  let exitLabel ← newLabel
  build fun b => (b.branch .noLanesActive exitLabel).label bodyLabel
  body
  if 1 < count then
    match test with
    | none => throw .untestedLoop
    | some test =>
      next
      test
      build fun b => (b.branch (.noLanesEqual 0) bodyLabel).discard 1
  build (·.label exitLabel)

/-! ## Switches and jumps -/

/-- A switch. Its stack holds the value and the lanes that no case has matched yet; the loop mask is
empty until a case matches. -/
def writeSwitch (continues : Bool) (value : GenM Unit)
    (cases : List (Option Int × GenM Unit)) : GenM Unit := do
  build fun b => b.enableMaskWrites.pushMask .loop
  let stack ← createStack
  onStack stack do
    value
    build (·.pushMask .loop)
  build (·.emit .maskOffLoop)
  let exitLabel ← newLabel
  let saved := (← get).breakTarget
  modify fun g => { g with breakTarget := some exitLabel }
  for (value, body) in cases do
    onStack stack <| build fun b =>
      match value with
      | some v => b.emit (.matchCase (Word.ofInt v))
      | none => b.emit .reenableLoop
    body
  build (·.label exitLabel)
  modify fun g => { g with breakTarget := saved }
  onStack stack (build (·.discard 2))
  recycleStack stack
  build (·.popMask .loop)
  -- Lanes that continued inside the switch stay off until the loop lets them back.
  match (← get).continueStack with
  | some continueStack =>
    if continues then
      build fun b =>
        let b := (b.pushCloneFromStack 1 continueStack 1).pushConstant Word.allOnes 1
        (b.binary .bitwiseXor .int 1).emit .mergeLoop
  | none => pure ()
  build Builder.disableMaskWrites

/-- Leaves a loop or switch. -/
def writeBreak : GenM Unit := do
  match (← get).breakTarget with
  | some target => build fun b => (b.branch .allLanesActive target).emit .maskOffLoop
  | none => throw .strayBreak

/-- Goes on with the next iteration. -/
def writeContinue : GenM Unit := do
  match (← get).continueStack with
  | some stack => build (·.emit (.continueLoop stack))
  | none => throw .strayContinue

/-- Returns from a function. -/
def writeReturn (value : Option (GenM Unit)) : GenM Unit := do
  match (← get).frame with
  | none => throw .strayReturn
  | some frame =>
    match value, frame.result with
    | some push, some result =>
      push
      build (·.popSlots result)
    | some _, none => throw .valueFromVoid
    | none, _ => pure ()
    if frame.usesReturnMask then build (·.emit .maskOffReturn)

/-! ## Statements -/

/-- Tells a trace that scopes are entered or left. -/
def traceScope (ctx : CodeContext) (delta : Int) : GenM Unit :=
  if ctx.trace then build (·.emit (.trace (.scope delta))) else pure ()

/-- Tells a trace the line of a statement. -/
def traceLine (ctx : CodeContext) (span : Span) : GenM Unit :=
  if ctx.trace then build (·.emit (.trace (.line (ctx.line span)))) else pure ()

namespace Stmt

mutual

/-- Writes the code of a statement. -/
def write (ctx : CodeContext) : Stmt → GenM Unit
  | block _ statements opensScope => do
    if opensScope then traceScope ctx 1
    writeAll ctx statements
    if opensScope then traceScope ctx (-1)
  | expression span e => do
    traceLine ctx span
    e.writeDiscarded ctx
  | declare span v value => do
    traceLine ctx span
    writeDeclaration ctx v value
  | branch span test ifTrue ifFalse => do
    traceLine ctx span
    let push := (test.operand ctx).push
    if test.isDynamicallyUniform then
      writeUniformBranch push (write ctx ifTrue) (writeOption ctx ifFalse)
    else writeMaskedBranch push (write ctx ifTrue) (writeOption ctx ifFalse)
  | loop span initializer test next body trips => do
    traceLine ctx span
    traceScope ctx 1
    let initializer := (writeOption ctx initializer).getD (pure ())
    let test := test.map fun e => (e.operand ctx).push
    let next := (next.map fun e => e.writeDiscarded ctx).getD (pure ())
    let jumps := body.jumps
    match if jumps == .none then trips else none with
    | some info => writeCounted info.count initializer test next (write ctx body)
    | none => writeFor jumps initializer test next (write ctx body)
    traceScope ctx (-1)
  | doWhile span body test => do
    traceLine ctx span
    writeDo body.jumps (write ctx body) (test.operand ctx).push
  | switch span value cases => do
    traceLine ctx span
    writeSwitch (switch span value cases).jumps.hasContinue (value.operand ctx).push
      (writeCases ctx cases)
  | breaks span => do
    traceLine ctx span
    writeBreak
  | continues span => do
    traceLine ctx span
    writeContinue
  | discards span => do
    traceLine ctx span
    throw .discard
  | returns span value => do
    traceLine ctx span
    writeReturn (value.map fun e => (e.operand ctx).push)
  | nop _ => pure ()

/-- Writes statements one after the other. -/
def writeAll (ctx : CodeContext) : List Stmt → GenM Unit
  | [] => pure ()
  | s :: rest => do
    write ctx s
    writeAll ctx rest

/-- The code of a statement that may be missing. -/
def writeOption (ctx : CodeContext) : Option Stmt → Option (GenM Unit)
  | none => none
  | some s => some (write ctx s)

/-- The code of the cases of a switch. -/
def writeCases (ctx : CodeContext) : List (CaseOf Stmt) → List (Option Int × GenM Unit)
  | [] => []
  | ⟨_, value, statements⟩ :: rest =>
    (value, writeAll ctx statements) :: writeCases ctx rest

end

end Stmt

end RasterShader
