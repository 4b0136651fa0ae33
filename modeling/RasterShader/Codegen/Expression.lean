import RasterShader.Codegen.Intrinsic

/-!
# Code for expressions

`Expr.operand` gives the code of an expression, by recursion on the expression. Calls of functions
that are not intrinsic are written out in place: arguments go to the slots of the parameters,
the body follows, and the values of `out` parameters are stored back.
-/

namespace RasterShader

open Gen

/-! ## Calls -/

/-- An argument that a parameter receives: the slots to pop it to, the place to store it back to,
or slots that the parameter borrows. -/
structure Passing where
  copies : List SlotRange
  outs : List (SlotRange × Place)
  lent : List (Nat × SlotRange)

/-- The slots that an argument can lend to a parameter that is never written. -/
def lendable? (ctx : CodeContext) (parameter : Variable) (argument : Expr) :
    GenM (Option SlotRange) := do
  if 0 < (ctx.usage.uses parameter).writes then return none
  match argument with
  | .reference _ v _ _ =>
    let g ← get
    let fixed := v.isGlobal || v.isUniform || v.builtin || (g.immutableVars.lookup v.id).isSome
    return if fixed then none else g.values.get? v
  | _ => return none

/-- Evaluates the argument of one parameter. -/
def passArgument (ctx : CodeContext) (passing : Passing) (parameter : Variable) (argument : Expr)
    (x : Operand) : GenM Passing := do
  if parameter.modifiers.isOut then
    let place ← x.place
    let slots ← valueSlots ctx parameter
    let outs := passing.outs ++ [(slots, place)]
    if parameter.modifiers.flags.contains .input then
      pushPlace place
      return { passing with outs, copies := passing.copies ++ [slots] }
    else return { passing with outs }
  else
    match ← lendable? ctx parameter argument with
    | some range => return { passing with lent := passing.lent ++ [(parameter.id, range)] }
    | none =>
      x.push
      let slots ← valueSlots ctx parameter
      return { passing with copies := passing.copies ++ [slots] }

/-- Calls a function: evaluates the arguments, writes the body out, stores the `out` parameters
back, and pushes the result. -/
def pushCall (ctx : CodeContext) (f : FunctionDecl) (arguments : List (Expr × Operand)) :
    GenM Unit := do
  match ctx.program.findDefinition? f with
  | none => throw (.undefinedFunction f.signature)
  | some definition =>
    let decl := definition.decl
    let passing ← (decl.parameters.zip arguments).foldlM
      (fun passing (parameter, argument, x) => passArgument ctx passing parameter argument x)
      ⟨[], [], []⟩
    for slots in passing.copies.reverse do
      build (·.popSlots slots)
    for (id, range) in passing.lent do
      modify fun g => { g with values := g.values.lend id range }
    let result ←
      if decl.returnType.isVoid then pure none
      else do
        let index ← functionIndex ctx decl
        pure (some (← allocate s!"[{decl.name}].result" decl.returnType (ctx.line decl.span) index))
    let skip ← newLabel
    let guarded := (← get).builder.maskWritesEnabled
    if guarded then build (·.branch .noLanesActive skip)
    ctx.writeBody definition result
    if guarded then build (·.label skip)
    for (id, _) in passing.lent do
      modify fun g => { g with values := g.values.giveBack id }
    for (slots, place) in passing.outs do
      build (·.pushSlots .value slots)
      storePlace ctx place
      build (·.discard slots.count)
      releasePlace place
    match result with
    | some range => build (·.pushSlots .value range)
    | none => pure ()

/-- Evaluates a child effect. -/
def pushChildCall (child : Variable) (arguments : List Operand) : GenM Unit := do
  match (← get).children.lookup child.id with
  | none => throw (.notAChild child.name)
  | some index =>
    match child.ty.effectKind?, arguments with
    | some .shader, [coords] =>
      coords.push
      build fun b => (b.emit .popCoords).emit (.invoke (.child .shader index))
    | some .colorFilter, [color] =>
      color.push
      build fun b => (b.popColor .src).emit (.invoke (.child .colorFilter index))
    | some .blender, [src, dst] =>
      src.push
      dst.push
      build fun b => ((b.popColor .dst).popColor .src).emit (.invoke (.child .blender index))
    | _, _ => throw (.childCall child.name)
    build (·.pushInput (.color .src))

/-! ## Expressions -/

/-- The place of an element of a place. A constant index is kept within the bounds. -/
def indexPlace (base : Operand) (index : Expr) (pushIndex : GenM Unit) (stride : Nat) :
    GenM Place := do
  let parent ← base.place
  match index.constantInt? with
  | some i =>
    let elements := base.slots / max stride 1
    return parent.slice (min i.toNat (elements - 1) * stride) stride
  | none => elementPlace parent pushIndex stride

/-- A constructor, whose value is pushed as constants if it is known and may be computed
beforehand. -/
def constructor (ctx : CodeContext) (e : Expr) (push : GenM Unit) : Operand :=
  .ofValue e.ty <|
    match if ctx.optimize then e.constantValue? else none with
    | some values => Operand.pushWords (constantBits e.ty values)
    | none => push

namespace Expr

mutual

/-- The code of an expression. -/
def operand (ctx : CodeContext) : Expr → Operand
  | literal h v =>
    .ofValue h.ty (build (·.pushConstant (literalBits v h.ty.numberKind) 1))
  | reference h v _ _ => .ofVariable ctx h.ty v
  | binary h left op right =>
    .ofValue h.ty
      (Operand.binary ctx h.ty op left right (operand ctx left) (operand ctx right))
  | prefixed h op x => .ofValue h.ty (Operand.prefixed ctx op (operand ctx x))
  | postfixed h op x => .ofValue h.ty (Operand.postfixed ctx op (operand ctx x))
  | field h base i =>
    .ofPlace h.ty do
      let parent ← (operand ctx base).place
      return parent.slice (base.ty.fieldSlotOffset i) h.ty.slotCount
  | index h base i =>
    .ofPlace h.ty (indexPlace (operand ctx base) i (operand ctx i).push h.ty.slotCount)
  | swizzle h base components =>
    let x := operand ctx base
    let place := do return (← x.place).swizzle components
    if base.baseVariable?.isSome then .ofPlace h.ty place
    else
      { ty := h.ty
        push := do
          x.push
          build (·.swizzle base.ty.slotCount components)
        place }
  | ternary h test ifTrue ifFalse =>
    .ofValue h.ty (Operand.ternary h.ty.slotCount test ifTrue ifFalse (operand ctx test)
      (operand ctx ifTrue) (operand ctx ifFalse))
  | call h f arguments =>
    let operands := operandsOf ctx arguments
    .ofValue h.ty <|
      match f.intrinsic with
      | some intrinsic => intrinsic.push (call h f arguments) operands
      | none => pushCall ctx f (arguments.zip operands)
  | childCall h child arguments => .ofValue h.ty (pushChildCall child (operandsOf ctx arguments))
  | convert h conversion x =>
    constructor ctx (convert h conversion x) (Operand.convert conversion h.ty (operand ctx x))
  | assemble h assembly parts =>
    constructor ctx (assemble h assembly parts)
      ((operandsOf ctx parts).forM fun part => part.push)
  | poison span => .ofValue (poison span).ty (throw .invalidExpression)

/-- The code of several expressions. -/
def operandsOf (ctx : CodeContext) : List Expr → List Operand
  | [] => []
  | e :: rest => operand ctx e :: operandsOf ctx rest

end

/-- Evaluates an expression for its side effects only. The old value of a step is not needed. -/
def writeDiscarded (ctx : CodeContext) (e : Expr) : GenM Unit := do
  match e with
  | postfixed _ op x => Operand.prefixed ctx op (operand ctx x)
  | e => (operand ctx e).push
  build (·.discard e.ty.slotCount)

end Expr

end RasterShader
